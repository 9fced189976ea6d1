import OriaOS.Vmm.UserBits

/-!
# What a program can reach

The kernel stays mapped in the address space of every program, and only the user bit
keeps the program away from it. Over all runs: from 8 MB on, an address at which a
program gets through leads to a frame that was handed out for that page, of this address
space alone or shared by a fork. Below 8 MB `vmm_create_page_dir` sets the user bit
itself, on the heap and on the image of the kernel.
-/

namespace OriaOS.Vmm

open OriaOS.Lib

/-! ## The property -/

/-- The table or page behind an entry that lets a program pass. -/
def userTable (v : Vm) (p i : Nat) : Option Nat :=
  if (v.mem p i).present && (v.mem p i).user then some (v.mem p i).frame else none

/-- The frame a program gets at an address: the walk of the processor, with the user bit
at every level. -/
def userPhys (v : Vm) (pml4 va : Nat) : Option Nat :=
  (userTable v pml4 (pml4Idx va)).bind fun pdpt =>
    (userTable v pdpt (pdptIdx va)).bind fun pd =>
      (userTable v pd (pdIdx va)).bind fun f =>
        if (v.mem pd (pdIdx va)).large then some (f / 512 * 512 + ptIdx va)
        else userTable v f (ptIdx va)

/-- Addresses have 48 bits. -/
abbrev vaSpace : Nat := 2 ^ 48

/-- A frame that the bitmap handed out for the page of the address: no table, and used by
other address spaces only for the same page, under a copy-on-write counter. -/
structure UserFrame (s : Sys) (t : Tid) (va f : Nat) : Prop where
  handed : reservedFrames ≤ f ∧ f < totalFrames ∧ s.vm.used f = true
  noTable : ∀ t', alive s t' = true → ∀ va', f ∉ walk s.vm (s.tasks t').pageDir va'
  own : ∀ t', alive s t' = true → ∀ va' < vaSpace,
    getPhys s.vm (s.tasks t').pageDir va' = f → va' / 0x1000 = va / 0x1000
  shared : ∀ t', alive s t' = true → (s.tasks t').pageDir ≠ (s.tasks t).pageDir →
    ∀ va', getPhys s.vm (s.tasks t').pageDir va' = f → 2 ≤ s.vm.cow f

/-! ## A walk under the invariant -/

section Walk
variable {v : Vm} {own : Owners} {r va f : Nat}

theorem userTable_eq_some {p i q : Nat} : userTable v p i = some q ↔
    (v.mem p i).present = true ∧ (v.mem p i).user = true ∧ (v.mem p i).frame = q := by
  simp [userTable, and_assoc]

/-- Address and page number are told by the indices. -/
theorem page_eq_of_indices {a b : Nat} (ha : a < vaSpace) (hb : b < vaSpace)
    (hpath : vaPath a = vaPath b) (hidx : ptIdx a = ptIdx b) : a / 0x1000 = b / 0x1000 := by
  simp only [vaPath, pml4Idx, pdptIdx, pdIdx, List.cons.injEq, and_true] at hpath
  simp only [ptIdx] at hidx
  simp only [vaSpace] at ha hb
  omega

/-- Below 8 MB the walk goes through the first four entries of the first directory. -/
theorem low_iff (hva : va < vaSpace) :
    va < 0x800000 ↔ [pml4Idx va, pdptIdx va] = [0, 0] ∧ pdIdx va < 4 := by
  simp only [vaSpace] at hva
  simp only [pml4Idx, pdptIdx, pdIdx, List.cons.injEq, and_true]
  omega

theorem low_page (hva : va < 0x800000) : pdIdx va * 512 + ptIdx va = va / 0x1000 := by
  simp only [pdIdx, ptIdx]
  omega

/-- The directory that a program's walk comes to belongs to the address space. -/
theorem userPd_spec (h : Inv v own) (hu : UserTables v own) (hr : IsRoot own r) {pdpt pd : Nat}
    (hpdpt : userTable v r (pml4Idx va) = some pdpt)
    (hpd : userTable v pdpt (pdptIdx va) = some pd) :
    own pd = some (.table r [pml4Idx va, pdptIdx va]) := by
  obtain ⟨hpres₁, -, rfl⟩ := userTable_eq_some.mp hpdpt
  obtain ⟨hpres₂, huser₂, rfl⟩ := userTable_eq_some.mp hpd
  have hown₁ : own (v.mem r (pml4Idx va)).frame = some (.table r [pml4Idx va]) := by
    rcases h.child hr (by simp) hpres₁ (h.not_large hr (by simp)) with hown | ⟨-, hbad, -⟩
    · exact hown
    · cases hbad
  have hsmall := h.not_large (i := pdptIdx va) hown₁ (by simp)
  rcases h.child hown₁ (by simp) hpres₂ hsmall with hown | ⟨hboot, -⟩
  · exact hown
  · exact absurd hboot ((hu _ hown₁).table (by simp) hpres₂ hsmall huser₂)

/-- A program gets through to the first 8 MB of memory, one to one, or to the page in the
page table of the address. -/
theorem userPhys_cases (h : Inv v own) (hu : UserTables v own) (hr : IsRoot own r)
    (hva : va < vaSpace) (hf : userPhys v r va = some f) :
    va < 0x800000 ∧ f = va / 0x1000 ∨
      0x800000 ≤ va ∧ ∃ pt, own pt = some (.table r (vaPath va)) ∧
        (v.mem pt (ptIdx va)).present = true ∧ (v.mem pt (ptIdx va)).frame = f ∧
        own f = some (.page (vaPath va) (ptIdx va)) := by
  obtain ⟨pdpt, hpdpt, hf⟩ := Option.bind_eq_some_iff.mp hf
  obtain ⟨pd, hpd, hf⟩ := Option.bind_eq_some_iff.mp hf
  obtain ⟨g, hg, hf⟩ := Option.bind_eq_some_iff.mp hf
  have hown := userPd_spec h hu hr hpdpt hpd
  obtain ⟨hpres, huser, rfl⟩ := userTable_eq_some.mp hg
  have hbits := hu (pdIdx va) hown
  by_cases hlarge : (v.mem pd (pdIdx va)).large = true
  · left
    rw [if_pos hlarge] at hf
    obtain ⟨hpath, hlt⟩ := hbits.large (by simp) hlarge huser
    have hlow := (low_iff hva).mpr ⟨hpath, hlt⟩
    have hentry := hbits.low hpath hlt
    rw [hentry] at hf
    simp only [PTE.userLarge, Option.some.injEq, Nat.mul_div_cancel _ (by decide : 0 < 512)] at hf
    exact ⟨hlow, by rw [← hf, low_page hlow]⟩
  · right
    rw [if_neg hlarge] at hf
    have hsmall := Bool.eq_false_of_not_eq_true hlarge
    have hhigh : ¬ va < 0x800000 := by
      intro hlow
      obtain ⟨hpath, hlt⟩ := (low_iff hva).mp hlow
      rw [hbits.low hpath hlt] at hsmall
      cases hsmall
    have hpt : own (v.mem pd (pdIdx va)).frame = some (.table r (vaPath va)) := by
      rcases h.child hown (by simp) hpres hsmall with hpt | ⟨-, hbad, -⟩
      · exact hpt
      · simp at hbad
    obtain ⟨hleaf, -, rfl⟩ := userTable_eq_some.mp hf
    refine ⟨Nat.le_of_not_lt hhigh, _, hpt, hleaf, rfl, (h.leaf hpt rfl hleaf).resolve_left ?_⟩
    exact Nat.not_lt.mpr ((hu _ hpt).leaf rfl hleaf)

/-- The first 8 MB are reached at every address. -/
theorem userPhys_low (h : Inv v own) (hu : UserTables v own) (hr : IsRoot own r)
    (hva : va < 0x800000) : userPhys v r va = some (va / 0x1000) := by
  obtain ⟨hpdpt, hpd⟩ := h.first_tables hr
  have hspace : va < vaSpace := Nat.lt_of_lt_of_le hva (by decide)
  obtain ⟨hpath, hlt⟩ := (low_iff hspace).mp hva
  simp only [List.cons.injEq, and_true] at hpath
  have h₁ : userTable v r (pml4Idx va) = some (v.mem r 0).frame := by
    rw [hpath.1]
    exact userTable_eq_some.mpr ⟨h.spine (Or.inl hr), (hu 0 hr).spine (Or.inl rfl) rfl, rfl⟩
  have h₂ : userTable v (v.mem r 0).frame (pdptIdx va) =
      some (v.mem (v.mem r 0).frame 0).frame := by
    rw [hpath.2]
    exact userTable_eq_some.mpr
      ⟨h.spine (Or.inr hpdpt), (hu 0 hpdpt).spine (Or.inr rfl) rfl, rfl⟩
  have hentry := (hu (pdIdx va) hpd).low rfl hlt
  have h₃ : userTable v (v.mem (v.mem r 0).frame 0).frame (pdIdx va) = some (pdIdx va * 512) :=
    userTable_eq_some.mpr (by rw [hentry]; exact ⟨rfl, rfl, rfl⟩)
  simp only [userPhys, h₁, h₂, h₃, Option.bind_some, hentry, PTE.userLarge, if_true,
    Nat.mul_div_cancel _ (by decide : 0 < 512), low_page hva]

/-- A table on a walk is owned as a table, or a boot directory. -/
theorem Inv.walk_owned (h : Inv v own) (hr : IsRoot own r) (hf : f ∈ walk v r va) :
    (∃ path, own f = some (.table r path)) ∨ IsBootPd f := by
  simp only [walk, List.mem_cons, List.mem_append, Option.mem_toList] at hf
  rcases hf with rfl | (hf | hf) | hf
  · exact Or.inl ⟨[], hr⟩
  · obtain ⟨hpres, rfl⟩ := tableAt_eq_some.mp hf
    exact (h.child hr (by simp) hpres (h.not_large hr (by simp))).imp
      (fun hown => ⟨_, hown⟩) And.left
  · exact (h.pdOf_spec hr hf).imp_left fun hown => ⟨_, hown⟩
  · exact Or.inl ⟨_, h.ptOf_spec hr hf⟩

end Walk

/-- A page of a live address space is a frame of the user. -/
theorem SysInv.userFrame {s : Sys} {own : Owners} (h : SysInv s own) {t : Tid} {va f pt : Nat}
    (hva : va < vaSpace) (hpt : own pt = some (.table (s.tasks t).pageDir (vaPath va)))
    (hentry : (s.vm.mem pt (ptIdx va)).present = true ∧ (s.vm.mem pt (ptIdx va)).frame = f)
    (hf : own f = some (.page (vaPath va) (ptIdx va))) : UserFrame s t va f := by
  obtain ⟨hlow, hhigh, hused⟩ := h.inv.range hf
  -- Whoever maps the frame has it in the page table of the same address.
  have hsame {t' : Tid} (ht' : alive s t' = true) {va' : Nat}
      (hphys : getPhys s.vm (s.tasks t').pageDir va' = f) :
      vaPath va' = vaPath va ∧ ptIdx va' = ptIdx va ∧ ∃ q,
        own q = some (.table (s.tasks t').pageDir (vaPath va)) ∧
          (s.vm.mem q (ptIdx va)).present = true ∧ (s.vm.mem q (ptIdx va)).frame = f := by
    rcases h.inv.getPhys_spec (h.live ht') va' with hout | ⟨q, hq, -, hpres, hframe⟩
    · rw [hphys] at hout
      rcases hout with hout | hout
      · exact absurd hlow (Nat.not_le.mpr hout)
      · exact absurd hhigh (Nat.not_lt.mpr hout)
    · rw [hphys] at hframe
      have hpage := (h.inv.leaf hq rfl hpres).resolve_left
        (by rw [hframe]; exact Nat.not_lt.mpr hlow)
      rw [hframe, hf] at hpage
      simp only [Option.some.injEq, Owner.page.injEq] at hpage
      rw [← hpage.1] at hq
      rw [← hpage.2] at hpres hframe
      exact ⟨hpage.1.symm, hpage.2.symm, q, hq, hpres, hframe⟩
  refine ⟨⟨hlow, hhigh, hused⟩, ?_, ?_, ?_⟩
  · intro t' ht' va' hwalk
    rcases h.inv.walk_owned (h.live ht') hwalk with ⟨path, hown⟩ | hboot
    · rw [hf] at hown
      cases hown
    · exact absurd (Nat.le_trans hlow hboot.2) (by decide)
  · intro t' ht' va' hva' hphys
    obtain ⟨hpath, hidx, -⟩ := hsame ht' hphys
    exact page_eq_of_indices hva' hva hpath hidx
  · intro t' ht' hdir va' hphys
    obtain ⟨-, -, q, hq, hqentry⟩ := hsame ht' hphys
    have hne : q ≠ pt := by
      rintro rfl
      rw [hpt] at hq
      simp only [Option.some.injEq, Owner.table.injEq] at hq
      exact hdir hq.1.symm
    have hmem : pt ∈ mappers s.vm own f (vaPath va) (ptIdx va) :=
      hentry.2 ▸ h.inv.mem_mappers_of_entry hpt hentry.1
    have hmem' : q ∈ mappers s.vm own f (vaPath va) (ptIdx va) :=
      hqentry.2 ▸ h.inv.mem_mappers_of_entry hq hqentry.1
    have htwo : 2 ≤ (mappers s.vm own f (vaPath va) (ptIdx va)).card :=
      Finset.one_lt_card.mpr ⟨pt, hmem, q, hmem', hne.symm⟩
    exact htwo.trans (h.inv.shared hf htwo)

/-! ## The calls -/

/-- The allocations that a call does not check find their frames: the stack page and the
TLS page of a program, the TLS page of a thread. -/
def Checked (s : Sys) : Op → Prop
  | .exec img =>
      let (v, dir) := createPageDir s.vm
      let (v, entry) := elfLoad v dir img
      entry ≠ 0 → Found v dir userStackPage ∧
        ∀ t, freeSlot s.tasks = some t → Found (mapNew v dir userStackPage).1 dir (tlsVa t)
  | .threadCreate tid => ∀ t, freeSlot s.tasks = some t → Found s.vm (s.tasks tid).pageDir (tlsVa t)
  | _ => True

/-- What a call needs: that it releases only frames that nobody else uses, and finds the
frames that it does not check. -/
def Careful (s : Sys) (op : Op) : Prop :=
  Guard s op ∧ (op.caller.all (alive s) = true → Checked s op)

section Calls
variable {s s' : Sys} {own own' : Owners} {tid : Tid}

/-- The page directories in use afterwards were in use before, or are new ones. -/
theorem SysInv.live_roots (h : SysInv s' own') {P : Nat → Prop}
    (hlive : ∀ t, alive s' t = true → P (s'.tasks t).pageDir) {r : Nat} (hr : IsRoot own' r) :
    P r := by
  obtain ⟨t, ht, rfl⟩ := h.roots hr
  exact hlive t ht

/-- A call that keeps the address spaces of the tasks. -/
theorem SysInv.old_roots (h : SysInv s own) (h' : SysInv s' own')
    (htasks : ∀ t, alive s' t = true →
      alive s t = true ∧ (s'.tasks t).pageDir = (s.tasks t).pageDir) {r : Nat}
    (hr : IsRoot own' r) : IsRoot own r := by
  apply h'.live_roots _ hr
  intro t ht
  obtain ⟨hold, hdir⟩ := htasks t ht
  rw [hdir]
  exact h.live hold

/-- The same for tasks whose fields are as they were. -/
theorem SysInv.same_roots (h : SysInv s own) (h' : SysInv s' own') (htasks : SameTasks s s')
    {r : Nat} (hr : IsRoot own' r) : IsRoot own r :=
  h.old_roots h' (fun t hta => ⟨by rwa [htasks.alive] at hta, (htasks t).2.1⟩) hr

theorem brk_sameTasks (newEnd memKb : Nat) : SameTasks s (brk s tid newEnd memKb) := by
  intro t
  unfold brk
  dsimp only
  split
  · exact ⟨rfl, rfl, rfl⟩
  split
  · exact ⟨rfl, rfl, rfl⟩
  · by_cases htt : t = tid
    · subst htt
      simp [setTask]
    · simp [setTask, htt]

theorem brk_userTables (h : SysInv s own) (hu : UserTables s.vm own) (ht : alive s tid = true)
    (newEnd memKb : Nat) (h' : SysInv (brk s tid newEnd memKb) own') :
    UserTables (brk s tid newEnd memKb).vm own' := by
  have hroots {r : Nat} (hr : IsRoot own' r) : IsRoot own r :=
    h.same_roots h' (brk_sameTasks newEnd memKb) hr
  have hinv := h'.inv
  unfold brk at hinv ⊢
  dsimp only at hinv ⊢
  split at hinv
  · rename_i hc
    rw [if_pos hc]
    exact hu.same h.inv hinv hroots fun _ => rfl
  rename_i hc
  rw [if_neg hc]
  split at hinv
  · rename_i hc'
    rw [if_pos hc']
    exact hu.same h.inv hinv hroots fun _ => rfl
  · rename_i hc'
    rw [if_neg hc']
    exact brkLoop_userTables _ _ _ hu h.inv (h.live ht) hinv hroots

theorem mmap_sameTasks (n : Nat) : SameTasks s (mmap s tid n) := by
  unfold mmap
  dsimp only
  split
  · exact SameTasks.refl s
  · split
    · exact sameTasks_vm s _ _ _
    · exact sameTasks_vm s _ _ _

theorem mmap_userTables (h : SysInv s own) (hu : UserTables s.vm own) (ht : alive s tid = true)
    (n : Nat) (h' : SysInv (mmap s tid n) own') : UserTables (mmap s tid n).vm own' := by
  have hroots {r : Nat} (hr : IsRoot own' r) : IsRoot own r :=
    h.same_roots h' (mmap_sameTasks n) hr
  have hinv := h'.inv
  unfold mmap at hinv ⊢
  dsimp only at hinv ⊢
  split at hinv
  · rename_i hc
    rw [if_pos hc]
    exact hu.same h.inv hinv hroots fun _ => rfl
  rename_i hc
  rw [if_neg hc]
  split at hinv
  · rename_i hok
    rw [if_pos hok]
    exact mmapLoop_userTables _ _ _ hu h.inv (h.live ht) hinv hroots
  · rename_i hok
    rw [if_neg hok]
    exact mmapLoop_userTables _ _ _ hu h.inv (h.live ht) hinv hroots

theorem mmapFile_sameTasks (n full : Nat) : SameTasks s (mmapFile s tid n full) := by
  unfold mmapFile
  dsimp only
  split
  · exact SameTasks.refl s
  · generalize (if n = 0 ∨ 256 < n then 256 else n) = maxPages
    split
    · exact sameTasks_vm s _ _ _
    · exact sameTasks_vm s _ _ _

theorem mmapFile_userTables (h : SysInv s own) (hu : UserTables s.vm own)
    (ht : alive s tid = true) (n full : Nat) (h' : SysInv (mmapFile s tid n full) own') :
    UserTables (mmapFile s tid n full).vm own' := by
  have hroots {r : Nat} (hr : IsRoot own' r) : IsRoot own r :=
    h.same_roots h' (mmapFile_sameTasks n full) hr
  have hinv := h'.inv
  unfold mmapFile at hinv ⊢
  dsimp only at hinv ⊢
  split at hinv
  · rename_i hc
    rw [if_pos hc]
    exact hu.same h.inv hinv hroots fun _ => rfl
  rename_i hc
  rw [if_neg hc]
  generalize (if n = 0 ∨ 256 < n then 256 else n) = maxPages at hinv ⊢
  split at hinv
  · rename_i hz
    rw [if_pos hz]
    exact mmapFileLoop_userTables _ _ _ _ hu h.inv (h.live ht) hinv hroots
  · rename_i hz
    rw [if_neg hz]
    exact mmapFileLoop_userTables _ _ _ _ hu h.inv (h.live ht) hinv hroots

theorem demandFault_sameTasks (va : Nat) : SameTasks s (demandFault s tid va) := by
  unfold demandFault
  dsimp only
  split
  · exact SameTasks.refl s
  · split
    · exact sameTasks_vm s _ _ _
    · exact sameTasks_vm s _ _ _

theorem demandFault_userTables (h : SysInv s own) (hu : UserTables s.vm own)
    (ht : alive s tid = true) (va : Nat) (h' : SysInv (demandFault s tid va) own') :
    UserTables (demandFault s tid va).vm own' := by
  have hroots {r : Nat} (hr : IsRoot own' r) : IsRoot own r :=
    h.same_roots h' (demandFault_sameTasks va) hr
  have hinv := h'.inv
  unfold demandFault at hinv ⊢
  dsimp only at hinv ⊢
  split at hinv
  · rename_i hc
    rw [if_pos hc]
    exact hu.same h.inv hinv hroots fun _ => rfl
  rename_i hc
  rw [if_neg hc]
  split at hinv
  · rename_i hz
    rw [if_pos hz]
    exact hu.same h.inv hinv hroots fun _ => by rw [(inv_allocFrame h.inv).2.1]
  · rename_i hnz
    rw [if_neg hnz]
    exact mapFresh_userTables hu h.inv (h.live ht) hnz (Or.inr rfl) hinv hroots

/-! Calls that only take mappings away. -/

theorem munmap_cleared (h : SysInv s own) (ht : alive s tid = true) (va n : Nat) :
    Cleared s.vm own (munmap s tid va n).vm := by
  unfold munmap
  dsimp only
  split
  · exact Cleared.refl _ _
  · exact (Cleared.refl _ _).unmapRange h.inv (h.live ht) _ _

theorem munmapFile_cleared (h : SysInv s own) (ht : alive s tid = true) (va n : Nat) :
    Cleared s.vm own (munmapFile s tid va n).vm := by
  unfold munmapFile
  dsimp only
  split
  · exact Cleared.refl _ _
  · exact (Cleared.refl _ _).unmapRange h.inv (h.live ht) _ _

theorem munmap_sameTasks (va n : Nat) : SameTasks s (munmap s tid va n) := by
  unfold munmap
  dsimp only
  split
  · exact SameTasks.refl s
  · exact sameTasks_vm s _ _ _

theorem munmapFile_sameTasks (va n : Nat) : SameTasks s (munmapFile s tid va n) := by
  unfold munmapFile
  dsimp only
  split
  · exact SameTasks.refl s
  · exact sameTasks_vm s _ _ _

theorem exit_cleared (h : SysInv s own) (ht : alive s tid = true) :
    Cleared s.vm own (exit s tid).vm := by
  unfold exit
  dsimp only
  split
  · change Cleared s.vm own (exitThread s tid)
    unfold exitThread
    cases hparent : (s.tasks tid).parentTid with
    | none => exact Cleared.refl _ _
    | some p =>
        dsimp only
        split
        · rename_i hused
          have hroot := h.live (alive_iff.mpr ⟨h.parent ht hparent, hused⟩)
          rw [h.inv.freeThreadStack_eq hroot]
          split
          · exact Cleared.refl _ _
          · exact ((Cleared.refl _ _).unmap h.inv hroot _).free _
        · exact Cleared.refl _ _
  · change Cleared s.vm own (freeUserMemory (killThreads s tid).vm (s.tasks tid).pageDir)
    rw [killThreads_vm h ht]
    obtain ⟨_, hend⟩ := freeUserMemory_stage h.inv (h.live ht)
    intro p i
    exact Or.inl (by rw [hend.mem])

theorem exit_tasks (t : Tid) (hta : alive (exit s tid) t = true) :
    alive s t = true ∧ ((exit s tid).tasks t).pageDir = (s.tasks t).pageDir := by
  have htt : t ≠ tid := by
    rintro rfl
    simp [alive, exit, setTask] at hta
  by_cases hthread : (s.tasks tid).isThread = true
  · have heq : (exit s tid).tasks t = s.tasks t := by simp [exit, hthread, setTask, htt]
    exact ⟨by simpa [alive, heq] using hta, by rw [heq]⟩
  · by_cases hkilled : isChildThread s tid t = true
    · simp [alive, exit, hthread, setTask, killThreads, htt, hkilled] at hta
    · have heq : (exit s tid).tasks t = s.tasks t := by
        simp [exit, hthread, setTask, killThreads, htt, hkilled]
      exact ⟨by simpa [alive, heq] using hta, by rw [heq]⟩

end Calls

section NewTasks
variable {s s' : Sys} {own own' : Owners} {tid : Tid}

theorem alive_setTask {v : Vm} {task : Task} {t t' : Tid}
    (hta : alive (setTask { s with vm := v } t task) t' = true) :
    (t' = t ∧ (setTask { s with vm := v } t task).tasks t' = task) ∨
      alive s t' = true ∧ (setTask { s with vm := v } t task).tasks t' = s.tasks t' := by
  by_cases htt : t' = t
  · exact Or.inl ⟨htt, by simp [setTask, htt]⟩
  · have heq : (setTask { s with vm := v } t task).tasks t' = s.tasks t' := by
      simp [setTask, htt]
    exact Or.inr ⟨by simpa [alive, heq] using hta, heq⟩

theorem threadCreate_userTables (h : SysInv s own) (hu : UserTables s.vm own)
    (ht : alive s tid = true) (hc : Checked s (.threadCreate tid))
    (h' : SysInv (threadCreate s tid) own') : UserTables (threadCreate s tid).vm own' := by
  cases hslot : freeSlot s.tasks with
  | none =>
      have heq : threadCreate s tid = s := by simp [threadCreate, hslot]
      rw [heq] at h' ⊢
      exact hu.same h.inv h'.inv (h.same_roots h' (SameTasks.refl s)) fun _ => rfl
  | some t =>
      have hroots {r : Nat} (hr : IsRoot own' r) : IsRoot own r := by
        apply h'.live_roots _ hr
        intro t' ht'
        unfold threadCreate at ht' ⊢
        simp only [hslot] at ht' ⊢
        rcases alive_setTask ht' with ⟨-, heq⟩ | ⟨hold, heq⟩
        · rw [heq]
          exact h.live ht
        · rw [heq]
          exact h.live hold
      have hinv := h'.inv
      unfold threadCreate at hinv ⊢
      simp only [hslot] at hinv ⊢
      exact mapFound_userTables hu h.inv (h.live ht) (hc t hslot) (Or.inr rfl) hinv hroots

/-- `task_create_user` in the address space of a new program. -/
theorem taskCreateUser_userTables {v : Vm} {own₁ : Owners} {dir : Nat} (h : SysInv s own)
    (hw : Walled v own₁) (hborn : Born own own₁ dir)
    (hfound : ∀ t, freeSlot s.tasks = some t → Found v dir (tlsVa t))
    (h' : SysInv (taskCreateUser { s with vm := v } dir) own') :
    UserTables (taskCreateUser { s with vm := v } dir).vm own' := by
  have hroots {r : Nat} (hr : IsRoot own' r) : IsRoot own₁ r := by
    apply h'.live_roots _ hr
    intro t' ht'
    unfold taskCreateUser at ht' ⊢
    cases hslot : freeSlot s.tasks with
    | none =>
        simp only [hslot] at ht' ⊢
        exact hborn.tables (h.live ht')
    | some t =>
        simp only [hslot] at ht' ⊢
        rcases alive_setTask ht' with ⟨-, heq⟩ | ⟨hold, heq⟩
        · rw [heq]
          exact hborn.root
        · rw [heq]
          exact hborn.tables (h.live hold)
  have hinv := h'.inv
  unfold taskCreateUser at hinv ⊢
  cases hslot : freeSlot s.tasks with
  | none =>
      simp only [hslot] at hinv ⊢
      exact hw.2.same hw.1 hinv hroots fun _ => rfl
  | some t =>
      simp only [hslot] at hinv ⊢
      exact mapFound_userTables hw.2 hw.1 hborn.root (hfound t hslot) (Or.inr rfl) hinv hroots

/-- What `SYS_EXEC` has when the image is loaded. -/
theorem elfLoad_walled {v : Vm} {own₁ : Owners} {dir : Nat} (hw : Walled v own₁)
    (hborn : Born own own₁ dir) (img : Image) :
    ∃ own₂, Walled (elfLoad v dir img).1 own₂ ∧ Born own own₂ dir := by
  obtain ⟨own₂, h₂, hgrow₂⟩ := elfPages_inv img.entry img.pages hw.1 hborn.root
  exact ⟨own₂, ⟨h₂, elfPages_userTables _ _ hw.2 hw.1 hborn.root h₂ hgrow₂.roots⟩,
    hborn.grow hgrow₂⟩

theorem exec_userTables (h : SysInv s own) (hu : UserTables s.vm own) (img : Image)
    (hdir : (createPageDir s.vm).2 ≠ 0) (hc : Checked s (.exec img))
    (h' : SysInv (exec s img) own') : UserTables (exec s img).vm own' := by
  obtain ⟨hzero, -⟩ | ⟨own₁, hw₁, hborn₁⟩ := createPageDir_walled ⟨h.inv, hu⟩
  · exact absurd hzero hdir
  obtain ⟨own₂, hw₂, hborn₂⟩ := elfLoad_walled hw₁ hborn₁ img
  unfold exec at h' ⊢
  dsimp only at h' ⊢
  split at h'
  · rename_i hz
    rw [if_pos hz]
    exact hw₂.2.same hw₂.1 h'.inv
      (fun hr => hborn₂.tables (h.same_roots h' (sameTasks_vm s _ _ _) hr)) fun _ => rfl
  · rename_i hnz
    rw [if_neg hnz]
    obtain ⟨hstack, htls⟩ := hc hnz
    obtain ⟨own₃, h₃, hgrow₃⟩ := mapFresh_inv hw₂.1 userStackPage hborn₂.root (Or.inl rfl)
    have hu₃ := mapFound_userTables hw₂.2 hw₂.1 hborn₂.root hstack (Or.inl rfl) h₃ hgrow₃.roots
    exact taskCreateUser_userTables h ⟨h₃, hu₃⟩ (hborn₂.grow hgrow₃) htls h'

theorem execReplace_userTables (h : SysInv s own) (hu : UserTables s.vm own)
    (ht : alive s tid = true) (img : Image) (h' : SysInv (execReplace s tid img) own') :
    UserTables (execReplace s tid img).vm own' := by
  obtain ⟨hzero, hw⟩ | ⟨own₁, hw₁, hborn₁⟩ := createPageDir_walled ⟨h.inv, hu⟩
  · unfold execReplace at h' ⊢
    dsimp only at h' ⊢
    rw [if_pos hzero] at h' ⊢
    exact hw.2.same hw.1 h'.inv (h.same_roots h' (sameTasks_vm s _ _ _)) fun _ => rfl
  obtain ⟨own₂, hw₂, hborn₂⟩ := elfLoad_walled hw₁ hborn₁ img
  -- Where the call fails, the tasks keep their address spaces.
  have hfailed {v : Vm} (h'' : SysInv { s with vm := v } own') {r : Nat} (hr : IsRoot own' r) :
      IsRoot own₂ r :=
    hborn₂.tables (h.same_roots h'' (sameTasks_vm s _ _ _) hr)
  unfold execReplace at h' ⊢
  dsimp only at h' ⊢
  rw [if_neg (hw₁.1.root_pos hborn₁.root)] at h' ⊢
  split at h'
  · rename_i hz
    rw [if_pos hz]
    exact freeUserMemory_userTables hw₂.2 hw₂.1 hborn₂.root h'.inv (hfailed h')
  rename_i hnz
  rw [if_neg hnz]
  split at h'
  · rename_i hz
    rw [if_pos hz]
    obtain ⟨hinv, hmem, -⟩ := inv_allocFrame hw₂.1
    exact freeUserMemory_userTables (hw₂.2.same hw₂.1 hinv id fun _ => by rw [hmem]) hinv
      hborn₂.root h'.inv (hfailed h')
  · rename_i hfz
    rw [if_neg hfz]
    obtain ⟨own₃, h₃, hgrow₃⟩ := mapFresh_inv hw₂.1 userStackPage hborn₂.root (Or.inl rfl)
    have hu₃ := mapFresh_userTables hw₂.2 hw₂.1 hborn₂.root hfz (Or.inl rfl) h₃ hgrow₃.roots
    have hborn₃ := hborn₂.grow hgrow₃
    apply freeUserMemory_userTables hu₃ h₃ (hborn₃.tables (h.live ht)) h'.inv
    intro r hr
    apply h'.live_roots _ hr
    intro t hta
    by_cases htt : t = tid
    · subst htt
      simpa [setTask] using hborn₃.root
    · have hold : alive s t = true := by simpa [alive, setTask, htt] using hta
      simpa [setTask, htt] using hborn₃.tables (h.live hold)

theorem fork_userTables (h : SysInv s own) (hu : UserTables s.vm own) (ht : alive s tid = true)
    (h' : SysInv (fork s tid) own') : UserTables (fork s tid).vm own' := by
  have hroot := h.live ht
  have hpos := h.inv.root_pos hroot
  obtain ⟨hzero, hw⟩ | ⟨own₁, hw₁, hborn₁⟩ := createPageDir_walled ⟨h.inv, hu⟩
  · unfold fork at h' ⊢
    dsimp only at h' ⊢
    rw [if_neg hpos, if_pos hzero] at h' ⊢
    exact hw.2.same hw.1 h'.inv (h.same_roots h' (sameTasks_vm s _ _ _)) fun _ => rfl
  obtain ⟨own₂, hw₂, hgrow₂⟩ := copyCow_walled hw₁ (h.rootsIn hborn₁) (card_roots_le _)
    (hborn₁.tables hroot) hborn₁.root
  have hborn₂ := hborn₁.grow hgrow₂
  unfold fork at h' ⊢
  dsimp only at h' ⊢
  rw [if_neg hpos, if_neg (hw₁.1.root_pos hborn₁.root)] at h' ⊢
  cases hslot : freeSlot s.tasks with
  | none =>
      simp only [hslot] at h' ⊢
      exact freeUserMemory_userTables hw₂.2 hw₂.1 hborn₂.root h'.inv
        fun hr => hborn₂.tables (h.same_roots h' (sameTasks_vm s _ _ _) hr)
  | some t =>
      simp only [hslot] at h' ⊢
      refine hw₂.2.same hw₂.1 h'.inv ?_ fun _ => rfl
      intro r hr
      apply h'.live_roots _ hr
      intro t' ht'
      rcases alive_setTask ht' with ⟨-, heq⟩ | ⟨hold, heq⟩
      · rw [heq]
        exact hborn₂.root
      · rw [heq]
        exact hborn₂.tables (h.live hold)

end NewTasks

/-! ## Every run -/

/-- One call with the frames it needs keeps the entries. -/
theorem step_userTables {s : Sys} {own own' : Owners} (h : SysInv s own)
    (hu : UserTables s.vm own) {op : Op} (hc : Careful s op) (h' : SysInv (step s op) own') :
    UserTables (step s op).vm own' := by
  unfold step at h' ⊢
  split at h'
  case isFalse hno =>
    rw [if_neg hno]
    exact hu.same h.inv h'.inv (h.same_roots h' (SameTasks.refl s)) fun _ => rfl
  case isTrue hcaller =>
    rw [if_pos hcaller]
    cases op with
    | exec img =>
        exact exec_userTables h hu img (createPageDir_ne_zero (hc.1 hcaller)) (hc.2 hcaller) h'
    | execReplace tid img => exact execReplace_userTables h hu hcaller img h'
    | fork tid => exact fork_userTables h hu hcaller h'
    | threadCreate tid => exact threadCreate_userTables h hu hcaller (hc.2 hcaller) h'
    | brk tid newEnd memKb => exact brk_userTables h hu hcaller newEnd memKb h'
    | mmap tid n => exact mmap_userTables h hu hcaller n h'
    | munmap tid va n =>
        exact (munmap_cleared h hcaller va n).userTables hu h.inv h'.inv
          (h.same_roots h' (munmap_sameTasks va n))
    | mmapFile tid n full => exact mmapFile_userTables h hu hcaller n full h'
    | munmapFile tid va n =>
        exact (munmapFile_cleared h hcaller va n).userTables hu h.inv h'.inv
          (h.same_roots h' (munmapFile_sameTasks va n))
    | cowFault tid va =>
        exact cowFault_userTables hu h.inv (h.live hcaller) va h'.inv
          (h.same_roots h' (sameTasks_vm s _ _ _))
    | demandFault tid va => exact demandFault_userTables h hu hcaller va h'
    | exit tid =>
        exact (exit_cleared h hcaller).userTables hu h.inv h'.inv (h.old_roots h' exit_tasks)

/-- The invariant and the entries, of a whole system. -/
def SysWalled (s : Sys) : Prop := ∃ own, SysInv s own ∧ UserTables s.vm own

theorem Start.walled {s : Sys} (h : Start s) : SysWalled s := by
  obtain ⟨own, hown⟩ := h.ok
  refine ⟨own, hown, ?_⟩
  intro p r path i hp
  obtain ⟨t, ht, -⟩ := hown.roots (hown.inv.rooted hp)
  rw [h.tasks] at ht
  cases ht

theorem walled_of_run {s : Sys} (r : Reach Start Careful step s) : SysWalled s := by
  induction r with
  | start h => exact h.walled
  | @next s op r hc ih =>
      obtain ⟨own, hown, hu⟩ := ih
      obtain ⟨own', hown'⟩ := step_ok ⟨own, hown⟩ hc.1
      exact ⟨own', hown', step_userTables hown hu hc hown'⟩

/-- In every run the programs reach the first 8 MB of memory, the heap and the image of
the kernel among them. -/
theorem low_memory_reached {s : Sys} (r : Reach Start Careful step s) {t : Tid}
    (ht : alive s t = true) {va : Nat} (hva : va < 0x800000) :
    userPhys s.vm (s.tasks t).pageDir va = some (va / 0x1000) := by
  obtain ⟨own, hown, hu⟩ := walled_of_run r
  exact userPhys_low hown.inv hu (hown.live ht) hva

/-- What a program reaches is its own exactly from 8 MB on. -/
theorem user_frame_iff {s : Sys} (r : Reach Start Careful step s) {t : Tid}
    (ht : alive s t = true) {va f : Nat} (hva : va < vaSpace)
    (hf : userPhys s.vm (s.tasks t).pageDir va = some f) :
    UserFrame s t va f ↔ 0x800000 ≤ va := by
  obtain ⟨own, hown, hu⟩ := walled_of_run r
  rcases userPhys_cases hown.inv hu (hown.live ht) hva hf with
    ⟨hlow, rfl⟩ | ⟨hhigh, pt, hpt, hpres, hframe, hpage⟩
  · refine ⟨fun h => ?_, fun hhigh => absurd hlow (Nat.not_lt.mpr hhigh)⟩
    have := h.handed.1
    simp only [reservedFrames] at this
    omega
  · exact ⟨fun _ => hhigh, fun _ => hown.userFrame hva hpt ⟨hpres, hframe⟩ hpage⟩

/-! ## A first program -/

/-- The boot state with one program running, of one page. -/
def onePageSys : Sys := step boot (.exec ⟨[0xC00000], 0xC00000⟩)

theorem found_of_free {v : Vm} {g : Nat} (hrange : reservedFrames ≤ g ∧ g < totalFrames)
    (hfree : v.used g = false) (dir va : Nat) : Found v dir va := by
  intro hempty
  have hg : g ∈ freeFrames v := mem_freeFrames.mpr ⟨hrange, hfree⟩
  rw [hempty] at hg
  cases hg

theorem boot_careful : Careful boot (.exec ⟨[0xC00000], 0xC00000⟩) := by
  refine ⟨fun _ => boot_freeFrames, fun _ => ?_⟩
  intro _
  constructor
  · apply found_of_free (g := 3000) (by decide)
    decide +kernel
  · intro t _
    apply found_of_free (g := 3000) (by decide)
    decide +kernel

theorem user_frame_one_page :
    UserFrame onePageSys 1 0xC00000 2051 ↔ 0x800000 ≤ 0xC00000 :=
  user_frame_iff (Reach.next _ (Reach.start boot_start) boot_careful) (by decide +kernel)
    (by decide) (by decide +kernel)

/-- The program reaches the first page of the kernel heap. -/
theorem kernel_heap_reached : ¬ ∀ s, Reach Start anyInput step s → ∀ t, alive s t = true →
    ∀ va f, va < vaSpace → userPhys s.vm (s.tasks t).pageDir va = some f → UserFrame s t va f := by
  intro h
  have hframe := h onePageSys ((Reach.start boot_start).next _ trivial) 1 (by decide +kernel)
    0x100000 0x100 (by decide) (by decide +kernel)
  exact absurd hframe.handed.1 (by decide)

end OriaOS.Vmm
