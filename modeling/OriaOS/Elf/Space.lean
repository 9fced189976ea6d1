import OriaOS.Elf.Reads
import OriaOS.Vmm.Translation

/-!
# Loading into an address space

The loader over page tables and memory. What the headers of a file make it do is a list of
pages, each with the segment it belongs to: the loader takes a frame for each, and ends at the
first for which there is none. This is how the processes see an image.
-/

namespace OriaOS.Elf

open OriaOS.Vmm

/-! ## The plan of a file -/

namespace ElfFile

instance (f : ElfFile) : Decidable f.HeaderOk := inferInstanceAs (Decidable (_ ∧ _))

/-- The pages that turn `i` and the turns after it load, `n` in all, and whether none of these
turns rejects the file. -/
def planFrom (f : ElfFile) : Nat → Nat → List (Nat × Nat) × Bool
  | 0, _ => ([], true)
  | n + 1, i =>
      if f.HeaderOutside i then ([], false)
      else if (f.phdr i).type ≠ 1 then f.planFrom n (i + 1)
      else if f.SegmentOutside (f.phdr i) then ([], false)
      else
        let rest := f.planFrom n (i + 1)
        ((f.phdr i).pages.map (fun va => (i, va)) ++ rest.1, rest.2)

/-- The pages a file makes the loader load, each behind the number of its program header. -/
def visits (f : ElfFile) : List (Nat × Nat) :=
  if f.HeaderOk then (f.planFrom f.ePhnum 0).1 else []

/-- The result of the loader if there is a frame for each page. -/
def result (f : ElfFile) : Nat :=
  if f.HeaderOk ∧ f.ePhnum ≠ 0 ∧ (f.planFrom f.ePhnum 0).2 = true then f.eEntry else 0

/-- A file as the processes see it. -/
def image (f : ElfFile) : Image := ⟨f.visits.map Prod.snd, f.result⟩

variable {f : ElfFile}

/-- The pages of an accepted segment belong to its number. -/
theorem mem_planFrom {n i j va : Nat} (h : (j, va) ∈ (f.planFrom n i).1) :
    i ≤ j ∧ j < i + n ∧ (f.phdr j).type = 1 ∧ va ∈ (f.phdr j).pages := by
  induction n generalizing i with
  | zero => cases h
  | succ n ih =>
      rw [planFrom] at h
      split_ifs at h with houtside htype hsegment
      · cases h
      · obtain ⟨hlo, hhi, hrest⟩ := ih h
        exact ⟨by omega, by omega, hrest⟩
      · cases h
      · rw [List.mem_append, List.mem_map] at h
        rcases h with ⟨w, hw, heq⟩ | h
        · cases heq
          exact ⟨Nat.le_refl _, by omega, not_not.mp htype, hw⟩
        · obtain ⟨hlo, hhi, hrest⟩ := ih h
          exact ⟨by omega, by omega, hrest⟩

/-- The segments follow each other. -/
theorem pairwise_planFrom (n i : Nat) :
    (f.planFrom n i).1.Pairwise fun x y => x.1 ≤ y.1 := by
  induction n generalizing i with
  | zero => exact List.Pairwise.nil
  | succ n ih =>
      rw [planFrom]
      split_ifs
      · exact List.Pairwise.nil
      · exact ih (i + 1)
      · exact List.Pairwise.nil
      · refine List.pairwise_append.mpr ⟨?_, ih (i + 1), ?_⟩
        · rw [List.pairwise_map]
          exact List.pairwise_of_forall fun _ _ => Nat.le_refl i
        · intro x hx y hy
          obtain ⟨w, -, rfl⟩ := List.mem_map.mp hx
          exact Nat.le_of_succ_le (mem_planFrom hy).1

theorem planFrom_of_passes {n i : Nat} (h : ∀ j, i ≤ j → j < i + n → f.Passes j) :
    (f.planFrom n i).2 = true ∧ ∀ j va, i ≤ j → j < i + n → (f.phdr j).type = 1 →
      va ∈ (f.phdr j).pages → (j, va) ∈ (f.planFrom n i).1 := by
  induction n generalizing i with
  | zero => exact ⟨rfl, fun j va hlo hhi => by omega⟩
  | succ n ih =>
      obtain ⟨hrest, hmem⟩ := ih (i := i + 1) fun j hlo hhi => h j (by omega) (by omega)
      obtain ⟨hinside, hsegment⟩ := h i (Nat.le_refl i) (by omega)
      rw [planFrom, if_neg hinside]
      by_cases htype : (f.phdr i).type = 1
      · rw [if_neg (not_not.mpr htype), if_neg (hsegment htype)]
        refine ⟨hrest, fun j va hlo hhi hload hva => List.mem_append.mpr ?_⟩
        rcases Nat.eq_or_lt_of_le hlo with rfl | hlo
        · exact Or.inl (List.mem_map.mpr ⟨va, hva, rfl⟩)
        · exact Or.inr (hmem j va hlo (by omega) hload hva)
      · rw [if_pos htype]
        refine ⟨hrest, fun j va hlo hhi hload hva => ?_⟩
        rcases Nat.eq_or_lt_of_le hlo with rfl | hlo
        · exact absurd hload htype
        · exact hmem j va hlo (by omega) hload hva

end ElfFile

section Plan
variable {σ : Type} {ops : PageOps σ} {f : ElfFile}

/-- The page loops over a list of pages, and whether there was a frame for each. -/
def loadVisits (ops : PageOps σ) (f : ElfFile) : List (Nat × Nat) → σ → σ × Bool
  | [], s => (s, true)
  | (i, va) :: rest, s =>
      let (s, phys) := ops.allocFrame s
      if phys = 0 then (s, false) else loadVisits ops f rest (loadPage ops f (f.phdr i) s va phys)

theorem loadPages_eq (i : Nat) (l : List Nat) (s : σ) :
    ((loadPages ops f (f.phdr i) l s).state, (loadPages ops f (f.phdr i) l s).ok) =
      loadVisits ops f (l.map fun va => (i, va)) s := by
  induction l generalizing s with
  | nil => rfl
  | cons va l ih =>
      rw [loadPages, List.map_cons, loadVisits]
      dsimp only
      split
      · rfl
      · exact ih _

theorem loadVisits_append (l l' : List (Nat × Nat)) (s : σ) :
    loadVisits ops f (l ++ l') s =
      if (loadVisits ops f l s).2 then loadVisits ops f l' (loadVisits ops f l s).1
      else ((loadVisits ops f l s).1, false) := by
  induction l generalizing s with
  | nil => rfl
  | cons x l ih =>
      rw [List.cons_append, loadVisits, loadVisits]
      dsimp only
      split
      · rfl
      · exact ih _

theorem runHeaders_plan (n i : Nat) (s : σ) :
    (runHeaders ops f n i s).state = (loadVisits ops f (f.planFrom n i).1 s).1 ∧
      (runHeaders ops f n i s).ret =
        if (loadVisits ops f (f.planFrom n i).1 s).2 = true ∧ (f.planFrom n i).2 = true then
          f.eEntry
        else 0 := by
  induction n generalizing i s with
  | zero => exact ⟨rfl, rfl⟩
  | succ n ih =>
      rw [runHeaders, ElfFile.planFrom]
      dsimp only
      by_cases houtside : f.HeaderOutside i
      · simp [houtside, loadVisits]
      rw [if_neg houtside, if_neg houtside]
      by_cases htype : (f.phdr i).type ≠ 1
      · rw [if_pos htype, if_pos htype]
        exact ih (i + 1) s
      rw [if_neg htype, if_neg htype]
      by_cases hsegment : f.SegmentOutside (f.phdr i)
      · simp [hsegment, loadVisits]
      rw [if_neg hsegment, if_neg hsegment]
      have hpages := @loadPages_eq _ ops f i (f.phdr i).pages s
      dsimp only
      simp only [loadVisits_append, ← hpages]
      by_cases hok : (loadPages ops f (f.phdr i) (f.phdr i).pages s).ok = true
      · rw [if_pos hok, if_pos hok]
        exact ih (i + 1) _
      · rw [if_neg hok, if_neg hok]
        exact ⟨rfl, by simp⟩

/-- On every file the loader goes through the visits, and has the result if it comes to their
end. -/
theorem runElf_visits (s : σ) :
    (runElf ops f s).state = (loadVisits ops f f.visits s).1 ∧
      (runElf ops f s).ret = if (loadVisits ops f f.visits s).2 then f.result else 0 := by
  unfold runElf ElfFile.visits ElfFile.result
  dsimp only
  by_cases hok : f.HeaderOk
  · rw [if_neg (Nat.not_lt.mpr hok.1), if_neg (by simp [hok.2]), if_pos hok]
    by_cases hphnum : f.ePhnum = 0
    · rw [if_pos hphnum, hphnum]
      exact ⟨rfl, by simp⟩
    · obtain ⟨hstate, hret⟩ := @runHeaders_plan _ ops f f.ePhnum 0 s
      rw [if_neg hphnum]
      refine ⟨hstate, ?_⟩
      simp only [Outcome.after, hret, hok, hphnum, ne_eq, not_false_eq_true, true_and]
      split_ifs <;> simp_all
  · rw [if_neg hok]
    have hfail : f.size.toNat < 64 ∨ (f.runTests ElfFile.headerTests).1 = false := by
      by_contra hc
      simp only [not_or, Nat.not_lt, Bool.not_eq_false] at hc
      exact hok hc
    simp only [hok, false_and, if_false, ite_self]
    rcases hfail with hsize | htests
    · rw [if_pos hsize]
      exact ⟨rfl, rfl⟩
    · split_ifs <;> exact ⟨rfl, rfl⟩

end Plan

/-! ## Memory -/

/-- The page tables, and physical memory as far as it holds pages. -/
structure Mem where
  vm : Vm
  ram : Nat → UInt8

/-- The functions that `elf_load` calls, with the new address space `dir`. -/
def memOps (dir : Nat) : PageOps Mem where
  allocFrame m := ({ m with vm := (allocFrame m.vm).1 }, (allocFrame m.vm).2)
  zeroFrame m g :=
    { vm := zeroFrame m.vm g
      ram := fun a => if a / 4096 = g then 0 else m.ram a }
  copyToFrame m g off bytes :=
    { m with
      ram := fun a =>
        if g * 4096 + off ≤ a then bytes.getD (a - (g * 4096 + off)) (m.ram a) else m.ram a }
  mapPage m va g := { m with vm := mapPage m.vm dir va (PTE.userRW g) }

theorem loadPage_vm (dir : Nat) (f : ElfFile) (ph : Phdr) (m : Mem) (va g : Nat) :
    (loadPage (memOps dir) f ph m va g).vm =
      mapPage (zeroFrame m.vm g) dir va (PTE.userRW g) := by
  unfold loadPage memOps
  dsimp only
  split_ifs <;> rfl

theorem loadVisits_cons (dir : Nat) (f : ElfFile) (i va : Nat) (l : List (Nat × Nat)) (m : Mem) :
    loadVisits (memOps dir) f ((i, va) :: l) m =
      if (allocFrame m.vm).2 = 0 then ({ m with vm := (allocFrame m.vm).1 }, false)
      else
        loadVisits (memOps dir) f l
          (loadPage (memOps dir) f (f.phdr i) { m with vm := (allocFrame m.vm).1 } va
            (allocFrame m.vm).2) := rfl

theorem loadVisits_vm (dir entry : Nat) (f : ElfFile) (l : List (Nat × Nat)) (m : Mem) :
    ((loadVisits (memOps dir) f l m).1.vm,
        if (loadVisits (memOps dir) f l m).2 then entry else 0) =
      elfPages m.vm dir entry (l.map Prod.snd) := by
  induction l generalizing m with
  | nil => rfl
  | cons x l ih =>
      obtain ⟨i, va⟩ := x
      simp only [loadVisits_cons, List.map_cons, elfPages]
      by_cases hg : (allocFrame m.vm).2 = 0
      · simp only [hg, if_true, Bool.false_eq_true, if_false]
      · simp only [if_neg hg]
        rw [ih, loadPage_vm]

/-- On the page tables the loader is the one of the processes, on the image of the file. -/
theorem elfLoad_image {dir fuel : Nat} {f : ElfFile} {m : Mem} {r : Outcome Mem}
    (h : elfLoad (memOps dir) f fuel m = some r) :
    (r.state.vm, r.ret) = Vmm.elfLoad m.vm dir f.image := by
  obtain rfl := elfLoad_some h
  obtain ⟨hstate, hret⟩ := @runElf_visits _ (memOps dir) f m
  rw [hstate, hret]
  exact loadVisits_vm dir f.result f f.visits m

end OriaOS.Elf
