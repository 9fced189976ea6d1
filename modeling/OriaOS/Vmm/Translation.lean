import OriaOS.Vmm.Tree

/-!
# Page tables as a map

Address spaces that are made by `vmm_create_page_dir` and changed by `vmm_map_page` and
`vmm_unmap_page`, in any order and with any frames, while other parts of the kernel take
frames and give them back. What `vmm_get_phys` answers depends on the history of the page
alone.
-/

namespace OriaOS.Vmm

open OriaOS.Lib

variable {f r va : Nat}

/-- Memory, the address spaces that have been made, and the frames that others have taken. -/
structure Spaces where
  vm : Vm
  roots : List Nat
  held : List Nat

inductive SpaceOp where
  | create
  | map (r va : Nat) (e : PTE)
  | unmap (r va : Nat)
  | alloc
  | free (f : Nat)

namespace Spaces

def step (s : Spaces) : SpaceOp → Spaces
  | .create =>
      let r := createPageDir s.vm
      if r.2 = 0 then { s with vm := r.1 } else { s with vm := r.1, roots := r.2 :: s.roots }
  | .map r va e => { s with vm := mapPage s.vm r va e }
  | .unmap r va => { s with vm := unmapPage s.vm r va }
  | .alloc =>
      let r := allocFrame s.vm
      if r.2 = 0 then { s with vm := r.1 } else { s with vm := r.1, held := r.2 :: s.held }
  | .free f => { s with vm := freeFrame s.vm f, held := s.held.erase f }

end Spaces

/-- A page-aligned address of the first gigabyte outside the 2 MB pages. -/
structure PlainVa (va : Nat) : Prop where
  aligned : va % 0x1000 = 0
  low : va < 2 ^ 30
  plain : pdIdx va ∉ kernelPages

/-- A page is mapped while there is a page table for it or a frame for one; a frame is given
back by who took it. -/
def Spaces.Allowed (s : Spaces) : SpaceOp → Prop
  | .create | .alloc => True
  | .map r va e => r ∈ s.roots ∧ PlainVa va ∧ e.present = true ∧
      ((ptOf s.vm r va).isSome ∨ freeFrames s.vm ≠ ∅)
  | .unmap r va => r ∈ s.roots ∧ PlainVa va
  | .free f => f ∈ s.held

/-- The states that are reached after boot, each with its history, the last operation
first. -/
inductive SpaceRun : List SpaceOp → Spaces → Prop
  | boot {v : Vm} (h : Booted v) : SpaceRun [] ⟨v, [], []⟩
  | next {ops : List SpaceOp} {s : Spaces} (op : SpaceOp) (run : SpaceRun ops s)
      (h : s.Allowed op) : SpaceRun (op :: ops) (s.step op)

/-- The frame of the latest mapping of a page that has not been unmapped since. -/
def latest (r va : Nat) : List SpaceOp → Option Nat
  | [] => none
  | .map r' va' e :: ops => if r' = r ∧ va' = va then some e.frame else latest r va ops
  | .unmap r' va' :: ops => if r' = r ∧ va' = va then none else latest r va ops
  | _ :: ops => latest r va ops

/-- The operation is about the page of an address. The tables decide on 36 bits of its
number. -/
def SpaceOp.Touches (r va : Nat) : SpaceOp → Prop
  | .map r' va' _ | .unmap r' va' => r = r' ∧ va / 0x1000 % 2 ^ 36 = va' / 0x1000
  | _ => False

/-- The entries that lead to tables: of the root, of the table at its first entry, and of
the page directory. -/
inductive TableSlot where
  | top (i : Fin 512)
  | mid (i : Fin 512)
  | low (i : Fin 512)

/-- The table at an entry. -/
def tableOf (v : Vm) (r : Nat) : TableSlot → Option Nat
  | .top i => tableAt v r i
  | .mid i => (tableAt v r 0).bind fun p => tableAt v p i
  | .low i => ((tableAt v r 0).bind fun p => tableAt v p 0).bind fun p =>
      if (v.mem p i).large then none else tableAt v p i

/-- What the tables of the address spaces stand for. -/
structure PageMap (ops : List SpaceOp) (s : Spaces) : Prop where
  latest : ∀ r ∈ s.roots, ∀ va, PlainVa va → getPhys s.vm r va = (latest r va ops).getD 0
  others : ∀ op, s.Allowed op → ∀ r ∈ s.roots, ∀ va, ¬ op.Touches r va →
    getPhys (s.step op).vm r va = getPhys s.vm r va
  apart : ∀ r ∈ s.roots, ∀ r' ∈ s.roots, ∀ a b f, tableOf s.vm r a = some f →
    tableOf s.vm r' b = some f → a = b ∧ (r = r' ∨ IsBootPd f)
  unheld : ∀ r ∈ s.roots, ∀ a f, tableOf s.vm r a = some f → f ∉ s.roots ∧ f ∉ s.held

/-! ## The tables along a run -/

/-- The trees have the roots that were made, and nobody else holds their frames. -/
structure SpacesOk (s : Spaces) (tab : Tabs) : Prop where
  tree : Tree s.vm tab
  roots : ∀ r, r ∈ s.roots ↔ tab r = some (r, .pml4)
  held : ∀ f ∈ s.held, tab f = none ∧ s.vm.used f = true ∧ reservedFrames ≤ f
  nodup : s.held.Nodup

theorem PlainVa.user (h : PlainVa va) : UserVa va := by
  have hlow := h.low
  simp only [UserVa, pml4Idx, pdptIdx]
  omega

/-- The indices say which page it is. -/
theorem PlainVa.touched {va' : Nat} (h : PlainVa va) (hva' : UserVa va')
    (hd : pdIdx va' = pdIdx va) (ht : ptIdx va' = ptIdx va) :
    va' / 0x1000 % 2 ^ 36 = va / 0x1000 := by
  have hlow := h.low
  simp only [UserVa, pml4Idx, pdptIdx] at hva'
  simp only [pdIdx] at hd
  simp only [ptIdx] at ht
  omega

theorem PlainVa.eq {va' : Nat} (h : PlainVa va) (h' : PlainVa va') (hd : pdIdx va' = pdIdx va)
    (ht : ptIdx va' = ptIdx va) : va' = va := by
  have hpage := h.touched h'.user hd ht
  have hlow := h'.low
  have haligned := h.aligned
  have haligned' := h'.aligned
  omega

/-- The operation sets the translation of this page. -/
def SpaceOp.Sets (r va : Nat) : SpaceOp → Prop
  | .map r' va' _ | .unmap r' va' =>
      r = r' ∧ UserVa va ∧ pdIdx va = pdIdx va' ∧ ptIdx va = ptIdx va'
  | _ => False

/-- What it is set to. -/
def SpaceOp.value : SpaceOp → Nat
  | .map _ _ e => e.frame
  | _ => 0

section Steps
variable {s : Spaces} {tab : Tabs} {v : Vm}

theorem ok_boot (h : Booted v) : SpacesOk ⟨v, [], []⟩ fun _ => none := by
  constructor
  · constructor
    all_goals try (intros; contradiction)
    exact h.boot
  · simp
  · simp
  · simp

/-- What a step does to the trees and to the translations. -/
structure Stepped (s : Spaces) (op : SpaceOp) : Prop where
  ok : ∃ tab', SpacesOk (s.step op) tab'
  set : ∀ r ∈ s.roots, ∀ va, op.Sets r va → getPhys (s.step op).vm r va = op.value
  others : ∀ r ∈ s.roots, ∀ va, ¬ op.Sets r va →
    getPhys (s.step op).vm r va = getPhys s.vm r va

/-- Page tables are added, and frames of others stay what they are. -/
theorem SpacesOk.extend (h : SpacesOk s tab) {tab' : Tabs} (hext : Extends s.vm tab v tab')
    (hroots : ∀ f, tab' f = some (f, .pml4) → tab f = some (f, .pml4)) :
    SpacesOk { s with vm := v } tab' where
  tree := hext.tree
  roots := fun r => (h.roots r).trans ⟨fun hr => hext.keep hr, hroots r⟩
  held := by
    intro f hf
    obtain ⟨hnone, hused, hlow⟩ := h.held f hf
    refine ⟨?_, hext.used hused, hlow⟩
    cases htab : tab' f with
    | none => rfl
    | some x =>
        rcases hext.fresh htab with hold | hfree
        · rw [hnone] at hold
          cases hold
        · rw [(mem_freeFrames.mp hfree).2] at hused
          cases hused
  nodup := h.nodup

theorem stepped_map (h : SpacesOk s tab) {e : PTE} (hop : s.Allowed (.map r va e)) :
    Stepped s (.map r va e) := by
  obtain ⟨hr, hva, hpres, hroom⟩ := hop
  obtain ⟨tab', hext, hroots, hphys⟩ :=
    h.tree.mapPage_spec ((h.roots r).mp hr) hva.user hva.plain e hroom
  refine ⟨⟨tab', h.extend hext hroots⟩, ?_, ?_⟩
  · intro r' hr' va' hsets
    refine (hphys r' va' ((h.roots r').mp hr')).trans ((if_pos hsets).trans ?_)
    rw [Tree.leafPhys, if_pos hpres]
    rfl
  · intro r' hr' va' hsets
    exact (hphys r' va' ((h.roots r').mp hr')).trans (if_neg hsets)

theorem stepped_unmap (h : SpacesOk s tab) (hop : s.Allowed (.unmap r va)) :
    Stepped s (.unmap r va) := by
  obtain ⟨hr, hva⟩ := hop
  obtain ⟨hext, hphys⟩ := h.tree.unmapPage_spec ((h.roots r).mp hr) hva.user hva.plain
  refine ⟨⟨tab, h.extend hext fun f => id⟩, ?_, ?_⟩
  · intro r' hr' va' hsets
    exact (hphys r' va' ((h.roots r').mp hr')).trans (if_pos hsets)
  · intro r' hr' va' hsets
    exact (hphys r' va' ((h.roots r').mp hr')).trans (if_neg hsets)

/-- A step that leaves all tables as they are. -/
theorem SpacesOk.stepped_of_tables (h : SpacesOk s tab) {op : SpaceOp}
    (hsets : ∀ r va, ¬ op.Sets r va) (tab' : Tabs) (hok : SpacesOk (s.step op) tab')
    (hkeep : ∀ q x, tab q = some x → tab' q = some x ∧ (s.step op).vm.mem q = s.vm.mem q) :
    Stepped s op := by
  refine ⟨⟨tab', hok⟩, fun r _ va hc => absurd hc (hsets r va), ?_⟩
  exact fun r hr va _ => h.tree.getPhys_of_tables hok.tree hkeep ((h.roots r).mp hr) va

theorem stepped_alloc (h : SpacesOk s tab) : Stepped s .alloc := by
  rcases allocFrame_eq s.vm with ⟨heq, -⟩ | ⟨f, hf, heq⟩
  · have hstep : s.step .alloc = s := by simp [Spaces.step, heq]
    refine h.stepped_of_tables (fun _ _ => id) tab ?_
      fun q x hq => ⟨hq, by rw [hstep]⟩
    rw [hstep]
    exact h
  · obtain ⟨⟨hlow, -⟩, hfree⟩ := mem_freeFrames.mp hf
    have hnz : f ≠ 0 := by
      rintro rfl
      exact absurd hlow (by decide)
    have hstep : s.step .alloc = { s with
        vm := { s.vm with used := Function.update s.vm.used f true }, held := f :: s.held } := by
      simp [Spaces.step, heq, hnz]
    have hused {q : Nat} (hq : s.vm.used q = true) :
        Function.update s.vm.used f true q = true := by
      by_cases hqf : q = f
      · simp [hqf]
      · simp [hqf, hq]
    refine h.stepped_of_tables (fun _ _ => id) tab ?_
      fun q x hq => ⟨hq, by rw [hstep]⟩
    rw [hstep]
    refine ⟨?_, h.roots, ?_, ?_⟩
    · exact h.tree.of_same (fun _ _ _ _ _ => rfl) (fun _ _ => rfl)
        fun q x hq => hused (h.tree.frame hq).2.2
    · intro g hg
      rcases List.mem_cons.mp hg with rfl | hg
      · exact ⟨h.tree.none_of_free hf, Function.update_self .., hlow⟩
      · obtain ⟨hnone, hheld, hlow'⟩ := h.held g hg
        exact ⟨hnone, hused hheld, hlow'⟩
    · refine List.nodup_cons.mpr ⟨fun hmem => ?_, h.nodup⟩
      have hheld := (h.held f hmem).2.1
      rw [hfree] at hheld
      cases hheld

theorem stepped_free (h : SpacesOk s tab) (hf : f ∈ s.held) : Stepped s (.free f) := by
  have hmem : (freeFrame s.vm f).mem = s.vm.mem := by
    unfold freeFrame
    split <;> rfl
  have hused {q : Nat} (hq : s.vm.used q = true) (hqf : q ≠ f) :
      (freeFrame s.vm f).used q = true := by
    unfold freeFrame
    split
    · simp [hqf, hq]
    · exact hq
  refine h.stepped_of_tables (fun _ _ => id) tab ⟨?_, h.roots, ?_, h.nodup.erase f⟩
    fun q x hq => ⟨hq, congrFun hmem q⟩
  · refine h.tree.of_same (fun q _ _ _ _ => congrFun hmem q) (fun q _ => congrFun hmem q) ?_
    intro q x hq
    refine hused (h.tree.frame hq).2.2 ?_
    rintro rfl
    rw [(h.held q hf).1] at hq
    cases hq
  · intro g hg
    obtain ⟨hgf, hg⟩ := (h.nodup.mem_erase_iff).mp hg
    obtain ⟨hnone, hheld, hlow⟩ := h.held g hg
    exact ⟨hnone, hused hheld hgf, hlow⟩

theorem stepped_create (h : SpacesOk s tab) : Stepped s .create ∧
    ∀ r ∈ (s.step .create).roots, r ∉ s.roots → ∀ va, PlainVa va →
      getPhys (s.step .create).vm r va = 0 := by
  rcases createPageDir_cases s.vm with ⟨hzero, hsame⟩ |
    ⟨a, b, c, ha, hb, hc, hab, hac, hbc, hroot, heq⟩
  · have hstep : s.step .create = { s with vm := (createPageDir s.vm).1 } := by
      simp [Spaces.step, hzero]
    have htab {q : Nat} {x : Nat × Level} (hq : tab q = some x) :
        (createPageDir s.vm).1.mem q = s.vm.mem q := by
      apply hsame.mem
      intro hf
      rw [h.tree.none_of_free hf] at hq
      cases hq
    constructor
    · refine h.stepped_of_tables (fun _ _ => id) tab ?_
        fun q x hq => ⟨hq, by rw [hstep]; exact htab hq⟩
      rw [hstep]
      refine ⟨?_, h.roots, ?_, h.nodup⟩
      · apply h.tree.of_same
        · exact fun q r l hq _ => htab hq
        · intro q hq
          exact hsame.mem q fun hf => free_not_boot hf hq
        · intro q x hq
          rw [hsame.used]
          exact (h.tree.frame hq).2.2
      · intro f hf
        rw [hsame.used]
        exact h.held f hf
    · intro r hr hr'
      rw [hstep] at hr
      exact absurd hr hr'
  · have hnz := free_ne_zero ha
    have hstep : s.step .create = { s with
        vm := fillPageDir (takeZeroed (takeZeroed (takeZeroed s.vm a) b) c) a b c
        roots := a :: s.roots } := by
      simp only [Spaces.step, hroot, heq, if_neg hnz]
    have htree := h.tree.newSpace ha hb hc hab hac hbc
    have hkeep {q : Nat} {x : Nat × Level} (hq : tab q = some x) :=
      Tree.addRoot_old h.tree ha hb hc hq
    constructor
    · refine h.stepped_of_tables (fun _ _ => id) (Tree.addRoot tab a b c) ?_ ?_
      · rw [hstep]
        refine ⟨htree, ?_, ?_, h.nodup⟩
        · intro r
          by_cases hra : r = a
          · simp [hra, Tree.addRoot]
          · simp only [List.mem_cons, hra, false_or, h.roots]
            exact ⟨fun hr => (hkeep hr).2, fun hr => (Tree.addRoot_back hr hra).2⟩
        · intro f hf
          obtain ⟨hnone, hused, hlow⟩ := h.held f hf
          have hne {g : Nat} (hg : g ∈ freeFrames s.vm) : f ≠ g := by
            rintro rfl
            rw [(mem_freeFrames.mp hg).2] at hused
            cases hused
          refine ⟨?_, ?_, hlow⟩
          · rw [Tree.addRoot, if_neg (hne ha), if_neg (hne hb), if_neg (hne hc), hnone]
          · dsimp only
            rw [Tree.newSpace_used, hused, Bool.or_true]
      · intro q x hq
        obtain ⟨⟨hqa, hqb, hqc⟩, hq'⟩ := hkeep hq
        refine ⟨hq', ?_⟩
        rw [hstep]
        funext k
        dsimp only
        rw [Tree.newSpace_mem hab hac hbc, if_neg hqa, if_neg hqb, if_neg hqc]
    · intro r hr hr' va hva
      rw [hstep] at hr ⊢
      rcases List.mem_cons.mp hr with rfl | hr
      · exact h.tree.getPhys_newSpace ha hb hc hab hac hbc hva.user hva.plain
      · exact absurd hr hr'

theorem stepped (h : SpacesOk s tab) {op : SpaceOp} (hop : s.Allowed op) : Stepped s op := by
  cases op with
  | create => exact (stepped_create h).1
  | map r va e => exact stepped_map h hop
  | unmap r va => exact stepped_unmap h hop
  | alloc => exact stepped_alloc h
  | free f => exact stepped_free h hop

end Steps

/-! ## Runs -/

section Runs
variable {ops : List SpaceOp} {s : Spaces}

theorem SpaceRun.ok (run : SpaceRun ops s) : ∃ tab, SpacesOk s tab := by
  induction run with
  | boot h => exact ⟨_, ok_boot h⟩
  | next op _ hop ih =>
      obtain ⟨tab, h⟩ := ih
      exact (stepped h hop).ok

theorem roots_step (s : Spaces) (op : SpaceOp) (hr : r ∈ s.roots) : r ∈ (s.step op).roots := by
  cases op with
  | create =>
      simp only [Spaces.step]
      split
      · exact hr
      · exact List.mem_cons_of_mem _ hr
  | alloc =>
      simp only [Spaces.step]
      split <;> exact hr
  | map | unmap | free => exact hr

/-- Nothing is said about an address space before it is made. -/
theorem SpaceRun.latest_new (run : SpaceRun ops s) (hr : r ∉ s.roots) (va : Nat) :
    latest r va ops = none := by
  induction run with
  | boot h => rfl
  | @next ops s op run hop ih =>
      have hold : r ∉ s.roots := mt (roots_step s op) hr
      cases op with
      | create | alloc | free => exact ih hold
      | map r' va' e =>
          have hne : ¬ (r' = r ∧ va' = va) := fun hc => hold (hc.1 ▸ hop.1)
          rw [latest, if_neg hne]
          exact ih hold
      | unmap r' va' =>
          have hne : ¬ (r' = r ∧ va' = va) := fun hc => hold (hc.1 ▸ hop.1)
          rw [latest, if_neg hne]
          exact ih hold

theorem SpaceOp.sets_iff {r r' va va' : Nat} (hva : PlainVa va) (hva' : PlainVa va') :
    (r = r' ∧ UserVa va ∧ pdIdx va = pdIdx va' ∧ ptIdx va = ptIdx va') ↔ r' = r ∧ va' = va := by
  constructor
  · rintro ⟨rfl, -, hd, ht⟩
    exact ⟨rfl, (hva'.eq hva hd ht).symm⟩
  · rintro ⟨rfl, rfl⟩
    exact ⟨rfl, hva.user, rfl, rfl⟩

/-- The translation of a page is that of its latest mapping. -/
theorem SpaceRun.getPhys_eq (run : SpaceRun ops s) (hr : r ∈ s.roots) (hva : PlainVa va) :
    getPhys s.vm r va = (latest r va ops).getD 0 := by
  induction run with
  | boot h => exact absurd hr List.not_mem_nil
  | @next ops s op run hop ih =>
      obtain ⟨tab, h⟩ := run.ok
      by_cases hold : r ∈ s.roots
      · have hstep := stepped h hop
        cases op with
        | create | alloc | free =>
            exact (hstep.others r hold va id).trans (ih hold)
        | map r' va' e =>
            have hiff := @SpaceOp.sets_iff r r' _ _ hva hop.2.1
            rw [latest]
            by_cases hat : r' = r ∧ va' = va
            · rw [if_pos hat]
              exact hstep.set r hold va (hiff.mpr hat)
            · rw [if_neg hat]
              exact (hstep.others r hold va (mt hiff.mp hat)).trans (ih hold)
        | unmap r' va' =>
            have hiff := @SpaceOp.sets_iff r r' _ _ hva hop.2
            rw [latest]
            by_cases hat : r' = r ∧ va' = va
            · rw [if_pos hat]
              exact hstep.set r hold va (hiff.mpr hat)
            · rw [if_neg hat]
              exact (hstep.others r hold va (mt hiff.mp hat)).trans (ih hold)
      · cases op with
        | create =>
            have hnone : latest r va (.create :: ops) = none := run.latest_new hold va
            rw [(stepped_create h).2 r hr hold va hva, hnone]
            rfl
        | alloc =>
            refine absurd ?_ hold
            simp only [Spaces.step] at hr
            split at hr <;> exact hr
        | map | unmap | free => exact absurd hr hold

/-- What the walk finds at an entry: the table of that place, or a boot directory. -/
theorem tableOf_spec {v : Vm} {tab : Tabs} (h : Tree v tab) (hr : tab r = some (r, .pml4))
    {a : TableSlot} (hf : tableOf v r a = some f) :
    (a = .top 0 ∧ tab f = some (r, .pdpt)) ∨ (a = .mid 0 ∧ tab f = some (r, .pd)) ∨
      (∃ i : Fin 512, a = .low i ∧ tab f = some (r, .pt i)) ∨
        ∃ i : Fin 512, a = .mid i ∧ IsBootPd f ∧ f = i + 3 := by
  obtain ⟨b, htop, hb⟩ := h.top hr
  obtain ⟨c, hmid, hc⟩ := h.mid hb
  have hpdpt : tableAt v r 0 = some b := tableAt_eq_some.mpr ⟨by rw [htop]; rfl, by rw [htop]; rfl⟩
  have hpd : tableAt v b 0 = some c := tableAt_eq_some.mpr ⟨by rw [hmid]; rfl, by rw [hmid]; rfl⟩
  cases a with
  | top i =>
      obtain ⟨hpres, hframe⟩ := tableAt_eq_some.mp hf
      by_cases hi : i = 0
      · subst hi
        rw [Fin.val_zero, htop] at hframe
        exact Or.inl ⟨rfl, hframe ▸ hb⟩
      · rw [h.topRest hr (fun hc => hi (Fin.ext hc)) i.isLt] at hpres
        cases hpres
  | mid i =>
      rw [tableOf, hpdpt, Option.bind_some] at hf
      obtain ⟨hpres, hframe⟩ := tableAt_eq_some.mp hf
      by_cases hi : i = 0
      · subst hi
        rw [Fin.val_zero, hmid] at hframe
        exact Or.inr (Or.inl ⟨rfl, hframe ▸ hc⟩)
      · have hi0 : (i : Nat) ≠ 0 := fun hc => hi (Fin.ext hc)
        by_cases hi4 : (i : Nat) < 4
        · rw [h.midBoot hb hi0 hi4] at hframe
          have hboot : IsBootPd ((i : Nat) + 3) := by
            unfold IsBootPd
            omega
          have heq : (i : Nat) + 3 = f := hframe
          exact Or.inr (Or.inr (Or.inr ⟨i, rfl, heq ▸ hboot, heq.symm⟩))
        · rw [h.midRest hb (Nat.le_of_not_lt hi4) i.isLt] at hpres
          cases hpres
  | low i =>
      rw [tableOf, hpdpt, Option.bind_some, hpd, Option.bind_some] at hf
      split at hf
      · cases hf
      · next hl =>
        obtain ⟨hpres, rfl⟩ := tableAt_eq_some.mp hf
        have hown := h.low hc i.isLt (mt (h.large hc i.isLt).mpr hl) hpres
        exact Or.inr (Or.inr (Or.inl ⟨i, rfl, hown⟩))

/-- An entry leads to a table of its own. -/
theorem tableOf_apart {v : Vm} {tab : Tabs} (h : Tree v tab) {r' : Nat}
    (hr : tab r = some (r, .pml4)) (hr' : tab r' = some (r', .pml4)) {a b : TableSlot}
    (ha : tableOf v r a = some f) (hb : tableOf v r' b = some f) :
    a = b ∧ (r = r' ∨ IsBootPd f) := by
  have hplace {x y : Nat × Level} (hx : tab f = some x) (hy : tab f = some y) : x = y :=
    Option.some.inj (hx.symm.trans hy)
  rcases tableOf_spec h hr ha with ⟨rfl, hta⟩ | ⟨rfl, hta⟩ | ⟨i, rfl, hta⟩ | ⟨i, rfl, hboot, hfi⟩
  all_goals
    rcases tableOf_spec h hr' hb with
      ⟨rfl, htb⟩ | ⟨rfl, htb⟩ | ⟨j, rfl, htb⟩ | ⟨j, rfl, hboot', hfj⟩
  all_goals first
    | exact absurd hboot' (h.not_boot hta)
    | exact absurd hboot (h.not_boot htb)
    | skip
  · cases hplace hta htb
    exact ⟨rfl, Or.inl rfl⟩
  · cases hplace hta htb
  · cases hplace hta htb
  · cases hplace hta htb
  · cases hplace hta htb
    exact ⟨rfl, Or.inl rfl⟩
  · cases hplace hta htb
  · cases hplace hta htb
  · cases hplace hta htb
  · have heq := hplace hta htb
    simp only [Prod.mk.injEq, Level.pt.injEq] at heq
    obtain ⟨rfl, hij⟩ := heq
    rw [Fin.ext hij]
    exact ⟨rfl, Or.inl rfl⟩
  · have hij : i = j := Fin.ext (by omega)
    rw [hij]
    exact ⟨rfl, Or.inr hboot⟩

/-- Only the page of the operation is touched. -/
theorem SpaceOp.touches_of_sets {op : SpaceOp} (hop : s.Allowed op) (h : op.Sets r va) :
    op.Touches r va := by
  cases op with
  | create | alloc | free => exact h
  | map r' va' e => exact ⟨h.1, hop.2.1.touched h.2.1 h.2.2.1 h.2.2.2⟩
  | unmap r' va' => exact ⟨h.1, hop.2.touched h.2.1 h.2.2.1 h.2.2.2⟩

/-- In every state that is reached the page tables are a map from pages to frames. -/
theorem page_tables_map (run : SpaceRun ops s) : PageMap ops s := by
  obtain ⟨tab, h⟩ := run.ok
  constructor
  · exact fun r hr va hva => run.getPhys_eq hr hva
  · intro op hop r hr va htouch
    exact (stepped h hop).others r hr va (mt (SpaceOp.touches_of_sets hop) htouch)
  · intro r hr r' hr' a b f ha hb
    exact tableOf_apart h.tree ((h.roots r).mp hr) ((h.roots r').mp hr') ha hb
  · intro r hr a f ha
    have hplace : (∃ x : Nat × Level, tab f = some x ∧ x.2 ≠ .pml4) ∨ IsBootPd f := by
      rcases tableOf_spec h.tree ((h.roots r).mp hr) ha with
        ⟨-, hf⟩ | ⟨-, hf⟩ | ⟨i, -, hf⟩ | ⟨i, -, hboot, -⟩
      · exact Or.inl ⟨_, hf, by simp⟩
      · exact Or.inl ⟨_, hf, by simp⟩
      · exact Or.inl ⟨_, hf, by simp⟩
      · exact Or.inr hboot
    constructor
    · intro hroot
      have hself := (h.roots f).mp hroot
      rcases hplace with ⟨x, hx, hl⟩ | hboot
      · rw [hself] at hx
        cases hx
        exact hl rfl
      · exact h.tree.not_boot hself hboot
    · intro hheld
      obtain ⟨hnone, -, hlow⟩ := h.held f hheld
      rcases hplace with ⟨x, hx, -⟩ | hboot
      · rw [hnone] at hx
        cases hx
      · exact absurd (hlow.trans hboot.2) (by decide)

end Runs

/-- One address space with one page. -/
theorem page_tables_map_one : PageMap [.map 2048 0xC00000 (PTE.userRW 3000), .create]
    ((Spaces.step ⟨boot.vm, [], []⟩ .create).step (.map 2048 0xC00000 (PTE.userRW 3000))) := by
  have hroot : (createPageDir boot.vm).2 = 2048 := by decide +kernel
  apply page_tables_map
  refine .next _ (.next _ (.boot boot_start.booted) trivial) ⟨?_, ⟨by decide, by decide, by decide⟩,
    rfl, Or.inr ?_⟩
  · simp [Spaces.step, hroot]
  · have hfree : (Spaces.step ⟨boot.vm, [], []⟩ .create).vm.used 3000 = false := by
      decide +kernel
    exact Finset.ne_empty_of_mem (mem_freeFrames.mpr ⟨by decide, hfree⟩)

end OriaOS.Vmm
