import OriaOS.Elf.Space
import OriaOS.Sched.Argv
import OriaOS.Vmm.Rollback

/-!
# System calls that fail

The four calls that take frames and can fail, with their checks and results. `SYS_EXEC` takes
nothing back: once it has the tables of the new address space they are lost. `SYS_EXEC_REPLACE`
and `SYS_FORK` tear the new address space down, and `SYS_MMAP` unmaps its pages again. When this
leaves the free frames and the translations as they were is said exactly for each of them.
-/

namespace OriaOS.Vmm

open OriaOS.Lib
open OriaOS.Elf (ElfFile)
open OriaOS.Sched (isUserPtr)

/-! ## The calls and their results -/

/-- `(uint32_t)-1`. -/
def minusOne32 : Nat := 2 ^ 32 - 1

/-- `(uint64_t)-1`. -/
def minusOne : Nat := 2 ^ 64 - 1

/-- The file behind a user pointer, `none` where a check of the call rejects it. What
`fs_read_bin` finds is `file`. -/
def checkedFile (ebx : Nat) (file : Option ElfFile) : Option ElfFile :=
  if isUserPtr ebx then file.filter fun f => f.size ≠ 0 else none

/-- A task number as a result, `-1` without one. -/
def tidResult : Option Tid → Nat
  | none => minusOne
  | some t => t.val

/-- `SYS_EXEC`. -/
def sysExec (s : Sys) (ebx : Nat) (file : Option ElfFile) : Sys × Nat :=
  if !isUserPtr ebx then (s, minusOne32)
  else
    match file.filter fun f => f.size ≠ 0 with
    | none => (s, minusOne)
    | some f =>
        let (v, procDir) := createPageDir s.vm
        let (v, entry) := elfLoad v procDir f.image
        if entry = 0 then ({ s with vm := v }, minusOne)
        else
          let (v, _) := mapNew v procDir userStackPage
          (taskCreateUser { s with vm := v } procDir, tidResult (freeSlot s.tasks))

/-- `SYS_EXEC_REPLACE`; it does not return when it succeeds. -/
def sysExecReplace (s : Sys) (tid : Tid) (ebx : Nat) (file : Option ElfFile) : Sys × Option Nat :=
  match checkedFile ebx file with
  | none => (s, some minusOne)
  | some f =>
      let (v, newDir) := createPageDir s.vm
      if newDir = 0 then ({ s with vm := v }, some minusOne)
      else
        let (v, entry) := elfLoad v newDir f.image
        if entry = 0 then ({ s with vm := freeUserMemory v newDir }, some minusOne)
        else
          let (v, stackFrame) := allocFrame v
          if stackFrame = 0 then ({ s with vm := freeUserMemory v newDir }, some minusOne)
          else
            let v := mapPage v newDir userStackPage (PTE.userRW stackFrame)
            let oldDir := (s.tasks tid).pageDir
            let s := setTask s tid { s.tasks tid with pageDir := newDir, heapEnd := userHeapStart }
            ({ s with vm := freeUserMemory v oldDir }, none)

/-- `SYS_FORK` with the user registers of the caller. -/
def sysFork (s : Sys) (tid : Tid) (childRip childRsp : Nat) : Sys × Nat :=
  let parent := (s.tasks tid).pageDir
  if parent = 0 then (s, minusOne)
  else if !isUserPtr childRip || !isUserPtr childRsp then (s, minusOne)
  else
    let (v, child) := createPageDir s.vm
    if child = 0 then ({ s with vm := v }, minusOne)
    else
      let v := copyCow v parent child
      match freeSlot s.tasks with
      | none => ({ s with vm := freeUserMemory v child }, minusOne)
      | some t =>
          (setTask { s with vm := v } t
            { s.tasks tid with
              used := true, isThread := false, parentTid := none, tlsFrame := 0
              pageDir := child }, t.val)

/-- `SYS_MMAP`. -/
def sysMmap (s : Sys) (tid : Tid) (n : Nat) : Sys × Nat :=
  let dir := (s.tasks tid).pageDir
  if n = 0 ∨ 256 < n then (s, 0)
  else if dir = 0 then (s, 0)
  else if mmapAnonLimit < s.mmapNextVa + n * 0x1000 then (s, 0)
  else
    let (v, ok) := mmapLoop s.vm dir s.mmapNextVa 0 n
    if ok then ({ s with vm := v, mmapNextVa := s.mmapNextVa + n * 0x1000 }, s.mmapNextVa)
    else ({ s with vm := v }, 0)

inductive SysCall
  | exec (ebx : Nat) (file : Option ElfFile)
  | execReplace (ebx : Nat) (file : Option ElfFile)
  | fork (childRip childRsp : Nat)
  | mmap (n : Nat)

/-- A call of task `tid`: the state behind it and what it returns, if it returns. -/
def sysCall (s : Sys) (tid : Tid) : SysCall → Sys × Option Nat
  | .exec ebx file => ((sysExec s ebx file).1, some (sysExec s ebx file).2)
  | .execReplace ebx file => sysExecReplace s tid ebx file
  | .fork childRip childRsp =>
      ((sysFork s tid childRip childRsp).1, some (sysFork s tid childRip childRsp).2)
  | .mmap n => ((sysMmap s tid n).1, some (sysMmap s tid n).2)

/-- The result says that the call has failed: `SYS_MMAP` returns zero, the others `-1`. -/
def SysCall.Fails : SysCall → Option Nat → Prop
  | .mmap _, ret => ret = some 0
  | _, ret => ret = some minusOne ∨ ret = some minusOne32

instance (call : SysCall) (ret : Option Nat) : Decidable (call.Fails ret) :=
  match call with
  | .mmap _ => inferInstanceAs (Decidable (_ = _))
  | .exec _ _ | .execReplace _ _ | .fork _ _ => inferInstanceAs (Decidable (_ ∨ _))

/-- The operation on memory and tasks that a call is, `none` where its checks reject it. -/
def SysCall.op (tid : Tid) : SysCall → Option Op
  | .exec ebx file => (checkedFile ebx file).map fun f => .exec f.image
  | .execReplace ebx file => (checkedFile ebx file).map fun f => .execReplace tid f.image
  | .fork childRip childRsp =>
      if isUserPtr childRip && isUserPtr childRsp then some (.fork tid) else none
  | .mmap n => some (.mmap tid n)

section Calls
variable {s : Sys} {tid : Tid} {ebx : Nat} {file : Option ElfFile} {f : ElfFile}

theorem sysExec_of_rejected (h : checkedFile ebx file = none) : (sysExec s ebx file).1 = s := by
  unfold checkedFile at h
  unfold sysExec
  by_cases hptr : isUserPtr ebx = true
  · rw [if_pos hptr] at h
    simp only [hptr, Bool.not_true, Bool.false_eq_true, if_false, h]
  · simp only [hptr, Bool.not_false, if_true]

theorem sysExec_of_file (h : checkedFile ebx file = some f) :
    sysExec s ebx file = (exec s f.image,
      if (elfLoad (createPageDir s.vm).1 (createPageDir s.vm).2 f.image).2 = 0 then minusOne
      else tidResult (freeSlot s.tasks)) := by
  unfold checkedFile at h
  split at h
  · next hptr =>
    unfold sysExec exec
    simp only [hptr, Bool.not_true, Bool.false_eq_true, if_false, h]
    split <;> rfl
  · cases h

/-- The state behind a call is that of its operation. -/
theorem sysCall_state (s : Sys) (tid : Tid) (call : SysCall) :
    (sysCall s tid call).1 = ((call.op tid).map (perform s)).getD s := by
  cases call with
  | exec ebx file =>
      simp only [sysCall, SysCall.op]
      cases hfile : checkedFile ebx file with
      | none => exact sysExec_of_rejected hfile
      | some f =>
          rw [sysExec_of_file hfile]
          rfl
  | execReplace ebx file =>
      simp only [sysCall, SysCall.op, sysExecReplace]
      cases checkedFile ebx file with
      | none => rfl
      | some f =>
          simp only [Option.map_some, Option.getD_some, perform, execReplace]
          split_ifs <;> rfl
  | fork childRip childRsp =>
      simp only [sysCall, SysCall.op, sysFork]
      by_cases hptr : (isUserPtr childRip && isUserPtr childRsp) = true
      · have hnot : (!isUserPtr childRip || !isUserPtr childRsp) = false := by
          rw [← Bool.not_and, hptr]
          rfl
        simp only [hptr, hnot, Bool.false_eq_true, if_true, if_false, Option.map_some,
          Option.getD_some, perform, fork]
        split_ifs
        · rfl
        · rfl
        · cases freeSlot s.tasks <;> rfl
      · have hnot : (!isUserPtr childRip || !isUserPtr childRsp) = true := by
          rw [← Bool.not_and, Bool.eq_false_of_not_eq_true hptr]
          rfl
        simp only [hptr, hnot, Bool.false_eq_true, if_true, if_false, ite_self, Option.map_none,
          Option.getD_none]
  | mmap n =>
      simp only [sysCall, SysCall.op, sysMmap, Option.map_some, Option.getD_some, perform, mmap]
      split_ifs <;> first | rfl | omega

end Calls

/-! ## What a failed call leaves -/

/-- The free frames, and the translations of every live address space with the entries they come
from, are as they were. -/
structure Unleaked (s s' : Sys) : Prop where
  frames : freeFrames s'.vm = freeFrames s.vm
  tasks : ∀ t, alive s' t = alive s t ∧ (s'.tasks t).pageDir = (s.tasks t).pageDir
  phys : ∀ t, alive s t = true → ∀ va,
    getPhys s'.vm (s'.tasks t).pageDir va = getPhys s.vm (s.tasks t).pageDir va
  leaf : ∀ t, alive s t = true → ∀ va,
    leafOf s'.vm (s'.tasks t).pageDir va = leafOf s.vm (s.tasks t).pageDir va

/-- A walk from physical page zero to the stack page finds no page table, or the entry it meets
there can become one for physical page zero without hurting a live address space. -/
def NullStackHarmless (s : Sys) : Prop :=
  ∀ pt, ptOf s.vm 0 userStackPage = some pt → ∀ t, alive s t = true → ∀ va,
    getPhys (setEntry s.vm pt (ptIdx userStackPage) (PTE.userRW 0)) (s.tasks t).pageDir va =
        getPhys s.vm (s.tasks t).pageDir va ∧
      leafOf (setEntry s.vm pt (ptIdx userStackPage) (PTE.userRW 0)) (s.tasks t).pageDir va =
        leafOf s.vm (s.tasks t).pageDir va

/-- What a call must find so that its failure costs nothing. -/
def Clean (s : Sys) (tid : Tid) : SysCall → Prop
  | .exec ebx file => ∀ f, checkedFile ebx file = some f → (freeList s.vm).length < 3 ∧
      (f.image.pages = [] ∧ f.image.entry = 0 ∨
        freeList s.vm = [] ∧ (f.image.pages ≠ [] ∨ NullStackHarmless s))
  | .execReplace ebx file => ∀ f, checkedFile ebx file = some f →
      (freeList s.vm).length < 3 ∨ AllFit s.vm [] f.image.pages
  | .fork childRip childRsp => isUserPtr childRip && isUserPtr childRsp →
      (freeList s.vm).length < 3 ∨ ∀ va, UserVa va → Marked s.vm (s.tasks tid).pageDir va
  | .mmap n => n ≠ 0 → n ≤ 256 → s.mmapNextVa + n * 0x1000 ≤ mmapAnonLimit →
      ∀ k < (freeList s.vm).length, Clear s.vm (s.tasks tid).pageDir (regionVa s.mmapNextVa k)

section Failed
variable {s : Sys} {own : Owners} {tid : Tid} {v : Vm}

theorem SysInv.unleaked_iff (h : SysInv s own) (v : Vm) :
    Unleaked s { s with vm := v } ↔ Intact s.vm own v := by
  constructor
  · intro hun
    refine ⟨hun.frames, fun hr va => ?_, fun hr va => ?_⟩
    · obtain ⟨t, ht, rfl⟩ := h.roots hr
      exact hun.phys t ht va
    · obtain ⟨t, ht, rfl⟩ := h.roots hr
      exact hun.leaf t ht va
  · intro hin
    exact ⟨hin.free, fun _ => ⟨rfl, rfl⟩, fun t ht va => hin.phys (h.live ht) va,
      fun t ht va => hin.leaf (h.live ht) va⟩

theorem Unleaked.refl (s : Sys) : Unleaked s s :=
  ⟨rfl, fun _ => ⟨rfl, rfl⟩, fun _ _ _ => rfl, fun _ _ _ => rfl⟩

theorem Intact.refl (v : Vm) (own : Owners) : Intact v own v :=
  ⟨rfl, fun _ _ => rfl, fun _ _ => rfl⟩

theorem tidResult_not_failed (t : Tid) :
    ¬ (some t.val = some minusOne ∨ some t.val = some minusOne32) := by
  have := t.isLt
  simp only [Option.some.injEq, minusOne, minusOne32, maxTasks] at this ⊢
  omega

/-! ## SYS_EXEC -/

theorem nextTable_full {p i : Nat} (h : freeList v = []) :
    nextTable v p i = (v, tableAt v p i) := by
  unfold nextTable tableAt
  split
  · rfl
  · rw [allocFrame_nil h]
    rfl

/-- Without frames no table can be added: one entry is set, if the tables on the way are there. -/
theorem mapPage_full {r va : Nat} {e : PTE} (h : freeList v = []) :
    mapPage v r va e = (ptOf v r va).elim v fun pt => setEntry v pt (ptIdx va) e := by
  have hnext (p i : Nat) : nextTable v p i = (v, tableAt v p i) := nextTable_full h
  unfold mapPage ptOf pdOf
  cases htop : tableAt v r (pml4Idx va) with
  | none => simp [hnext, htop]
  | some pdpt =>
      cases hmid : tableAt v pdpt (pdptIdx va) with
      | none => simp [hnext, htop, hmid]
      | some pd =>
          by_cases hlarge : (v.mem pd (pdIdx va)).large = true
          · simp [hnext, htop, hmid, hlarge]
          · cases hlow : tableAt v pd (pdIdx va) with
            | none => simp [hnext, htop, hmid, hlow, hlarge]
            | some pt => simp [hnext, htop, hmid, hlow, hlarge]

theorem SysInv.nullStack_iff (h : SysInv s own) (hl : freeList s.vm = []) :
    Intact s.vm own (mapPage s.vm 0 userStackPage (PTE.userRW 0)) ↔ NullStackHarmless s := by
  rw [mapPage_full hl, NullStackHarmless]
  cases ptOf s.vm 0 userStackPage with
  | none => exact iff_of_true (Intact.refl s.vm own) (by simp)
  | some pt =>
      simp only [Option.elim_some, Option.some.injEq, forall_eq']
      constructor
      · exact fun hin t ht va => ⟨hin.phys (h.live ht) va, hin.leaf (h.live ht) va⟩
      · intro hnull
        refine ⟨freeFrames_congr fun f => Iff.rfl, fun hr va => ?_, fun hr va => ?_⟩
        · obtain ⟨t, ht, rfl⟩ := h.roots hr
          exact (hnull t ht va).1
        · obtain ⟨t, ht, rfl⟩ := h.roots hr
          exact (hnull t ht va).2

/-- It is so when the entry is there already, and when it is in no table of an address space. -/
theorem SysInv.nullStackHarmless (h : SysInv s own)
    (hslot : ∀ pt, ptOf s.vm 0 userStackPage = some pt →
      s.vm.mem pt (ptIdx userStackPage) = PTE.userRW 0 ∨
        (∀ r path, own pt ≠ some (.table r path)) ∧ ¬ IsBootPd pt) : NullStackHarmless s := by
  intro pt hpt t ht va
  have hin : Intact s.vm own (setEntry s.vm pt (ptIdx userStackPage) (PTE.userRW 0)) := by
    rcases hslot pt hpt with hsame | ⟨htab, hboot⟩
    · rw [← hsame, setEntry, Function.update_eq_self, Function.update_eq_self]
      exact Intact.refl s.vm own
    · have hother {p : Nat} (hp : p ≠ pt) :
          (setEntry s.vm pt (ptIdx userStackPage) (PTE.userRW 0)).mem p = s.vm.mem p :=
        Function.update_of_ne hp _ _
      refine h.inv.intact (fun f => Iff.rfl) (fun {r p path} hp => hother ?_)
        fun {p} hp => hother ?_
      · rintro rfl
        exact htab r path hp
      · rintro rfl
        exact hboot hp
  exact ⟨hin.phys (h.live ht) va, hin.leaf (h.live ht) va⟩

/-- Memory after a failed `SYS_EXEC`. -/
def execLeft (v : Vm) (img : Image) : Vm :=
  if (elfLoad (createPageDir v).1 (createPageDir v).2 img).2 = 0 then
    (elfLoad (createPageDir v).1 (createPageDir v).2 img).1
  else
    (mapNew (elfLoad (createPageDir v).1 (createPageDir v).2 img).1 (createPageDir v).2
      userStackPage).1

theorem exec_failed {img : Image}
    (hfail : SysCall.Fails (.exec 0 none) (some
      (if (elfLoad (createPageDir s.vm).1 (createPageDir s.vm).2 img).2 = 0 then minusOne
        else tidResult (freeSlot s.tasks)))) :
    exec s img = { s with vm := execLeft s.vm img } := by
  unfold exec execLeft
  dsimp only
  split
  · rfl
  · next hentry =>
    rw [if_neg hentry] at hfail
    rw [taskCreateUser]
    dsimp only
    cases hslot : freeSlot s.tasks with
    | none => rfl
    | some t =>
        rw [hslot] at hfail
        exact absurd hfail (tidResult_not_failed t)

/-- A frame that is in use when the image is loaded stays in use. -/
theorem execLeft_used (img : Image) {g : Nat}
    (hg : (elfLoad (createPageDir v).1 (createPageDir v).2 img).1.used g = true) :
    (execLeft v img).used g = true := by
  unfold execLeft
  split
  · exact hg
  · exact mapPage_used (allocFrame_used hg)

/-- With frames for the new tables they are lost. -/
theorem execLeft_leaks (h : Inv v own) (hl : 3 ≤ (freeList v).length) (img : Image) :
    ¬ Intact v own (execLeft v img) := by
  intro hintact
  obtain ⟨a, b, c, fs, hl⟩ := exists_three hl
  have hstart := tidy_created h hl
  obtain ⟨hlow, hhigh, hused⟩ := hstart.inv.range hstart.root
  have hstill := execLeft_used img (elfPages_used hused)
  rw [hintact.not_used hlow hhigh (hstart.fresh hstart.root)] at hstill
  cases hstill

/-- Without them nothing is lost when no page is loaded, and the stack page does no harm. -/
theorem SysInv.execLeft_intact_iff (h : SysInv s own) (hl : (freeList s.vm).length < 3)
    (img : Image) :
    Intact s.vm own (execLeft s.vm img) ↔ img.pages = [] ∧ img.entry = 0 ∨
      freeList s.vm = [] ∧ (img.pages ≠ [] ∨ NullStackHarmless s) := by
  obtain ⟨hzero, hsame⟩ := createPageDir_short hl
  have hload : elfLoad (createPageDir s.vm).1 (createPageDir s.vm).2 img =
      elfPages (createPageDir s.vm).1 0 img.entry img.pages := by
    rw [elfLoad, hzero]
  cases hlist : freeList s.vm with
  | nil =>
      have hdir : createPageDir s.vm = (s.vm, 0) := by
        rw [createPageDir, allocFrame_nil hlist]
        rfl
      rw [hdir] at hload
      cases hpages : img.pages with
      | nil =>
          rw [hpages, elfPages] at hload
          by_cases hentry : img.entry = 0
          · rw [execLeft, hdir, hload, if_pos hentry]
            exact iff_of_true (Intact.refl s.vm own) (Or.inl ⟨rfl, hentry⟩)
          · rw [execLeft, hdir, hload, if_neg hentry, mapNew, allocFrame_nil hlist]
            simp only [h.nullStack_iff hlist, hentry, and_false, ne_eq, not_true_eq_false, true_and,
              false_or]
      | cons va rest =>
          rw [hpages, elfPages_nil hlist] at hload
          rw [execLeft, hdir, hload, if_pos rfl]
          exact iff_of_true (Intact.refl s.vm own) (Or.inr ⟨rfl, Or.inl (by simp)⟩)
  | cons f fs =>
      have hlist' : freeList (createPageDir s.vm).1 = f :: fs :=
        (freeList_congr hsame.used).trans hlist
      obtain ⟨⟨hlow, hhigh⟩, hfree⟩ := mem_freeFrames.mp (mem_freeList.mp (hlist ▸ List.mem_cons_self))
      have htaken : Function.update (createPageDir s.vm).1.used f true f = true := by simp
      have hleak (hused : (execLeft s.vm img).used f = true) :
          ¬ Intact s.vm own (execLeft s.vm img) := by
        intro hintact
        rw [hintact.not_used hlow hhigh hfree] at hused
        cases hused
      cases hpages : img.pages with
      | nil =>
          rw [hpages, elfPages] at hload
          by_cases hentry : img.entry = 0
          · rw [execLeft, hload, if_pos hentry]
            exact iff_of_true (hsame.intact h.inv) (Or.inl ⟨rfl, hentry⟩)
          · refine iff_of_false (hleak ?_) (by simp [hentry])
            rw [execLeft, hload, if_neg hentry, mapNew, allocFrame_cons hlist']
            exact mapPage_used htaken
      | cons va rest =>
          refine iff_of_false (hleak (execLeft_used img ?_)) (by simp)
          rw [hload, hpages, elfPages_cons hlist']
          exact elfPages_used (mapPage_used htaken)

theorem SysInv.exec_unleaked_iff (h : SysInv s own) (ebx : Nat) (file : Option ElfFile)
    (hfail : SysCall.Fails (.exec ebx file) (sysCall s tid (.exec ebx file)).2) :
    Unleaked s (sysCall s tid (.exec ebx file)).1 ↔ Clean s tid (.exec ebx file) := by
  simp only [sysCall, Clean] at hfail ⊢
  cases hfile : checkedFile ebx file with
  | none =>
      rw [sysExec_of_rejected hfile]
      exact iff_of_true (Unleaked.refl s) (by simp)
  | some f =>
      rw [sysExec_of_file hfile] at hfail ⊢
      dsimp only at hfail ⊢
      rw [exec_failed hfail, h.unleaked_iff]
      simp only [Option.some.injEq, forall_eq']
      by_cases hl : (freeList s.vm).length < 3
      · rw [h.execLeft_intact_iff hl, and_iff_right hl]
      · exact iff_of_false (execLeft_leaks h.inv (Nat.le_of_not_lt hl) f.image) fun hc => hl hc.1

/-! ## SYS_EXEC_REPLACE -/

theorem SysInv.execReplace_unleaked_iff (h : SysInv s own) (ebx : Nat) (file : Option ElfFile)
    (hfail : SysCall.Fails (.execReplace ebx file) (sysCall s tid (.execReplace ebx file)).2) :
    Unleaked s (sysCall s tid (.execReplace ebx file)).1 ↔
      Clean s tid (.execReplace ebx file) := by
  simp only [sysCall, Clean, sysExecReplace] at hfail ⊢
  cases hfile : checkedFile ebx file with
  | none => exact iff_of_true (Unleaked.refl s) (by simp)
  | some f =>
      rw [hfile] at hfail
      simp only [Option.some.injEq, forall_eq'] at hfail ⊢
      by_cases hl : (freeList s.vm).length < 3
      · obtain ⟨hzero, hsame⟩ := createPageDir_short hl
        rw [if_pos hzero, h.unleaked_iff]
        exact iff_of_true (hsame.intact h.inv) (Or.inl hl)
      · have hl := Nat.le_of_not_lt hl
        have hne : (createPageDir s.vm).2 ≠ 0 := createPageDir_ne_zero (length_freeList _ ▸ hl)
        have hiff := load_intact_iff h.inv hl f.image
        rw [if_neg hne] at hfail ⊢
        rw [or_iff_right (Nat.not_lt.mpr hl), ← hiff]
        split
        · exact h.unleaked_iff _
        · next hentry =>
          rw [if_neg hentry] at hfail
          rcases allocFrame_cases (elfLoad (createPageDir s.vm).1 (createPageDir s.vm).2 f.image).1
            with heq | ⟨g, hlow, -, -, heq⟩
          · rw [heq]
            exact h.unleaked_iff _
          · rw [heq, if_neg (Nat.ne_of_gt (Nat.lt_of_lt_of_le (by decide) hlow))] at hfail
            exact absurd hfail (by simp [SysCall.Fails])

/-! ## SYS_FORK -/

theorem SysInv.fork_unleaked_iff (h : SysInv s own) (ht : alive s tid = true)
    (childRip childRsp : Nat)
    (hfail : SysCall.Fails (.fork childRip childRsp) (sysCall s tid (.fork childRip childRsp)).2) :
    Unleaked s (sysCall s tid (.fork childRip childRsp)).1 ↔
      Clean s tid (.fork childRip childRsp) := by
  have hroot := h.live ht
  simp only [sysCall, Clean, sysFork, if_neg (h.inv.root_pos hroot)] at hfail ⊢
  by_cases hptr : (isUserPtr childRip && isUserPtr childRsp) = true
  · have hnot : (!isUserPtr childRip || !isUserPtr childRsp) = false := by
      rw [← Bool.not_and, hptr]
      rfl
    simp only [hnot, hptr, Bool.false_eq_true, if_false, forall_const] at hfail ⊢
    by_cases hl : (freeList s.vm).length < 3
    · obtain ⟨hzero, hsame⟩ := createPageDir_short hl
      rw [if_pos hzero, h.unleaked_iff]
      exact iff_of_true (hsame.intact h.inv) (Or.inl hl)
    · have hl := Nat.le_of_not_lt hl
      have hne : (createPageDir s.vm).2 ≠ 0 := createPageDir_ne_zero (length_freeList _ ▸ hl)
      rw [if_neg hne] at hfail ⊢
      cases hslot : freeSlot s.tasks with
      | none =>
          dsimp only
          have hroots : RootsIn own (Finset.univ.image fun t => (s.tasks t).pageDir) := by
            intro r hr
            obtain ⟨t, -, rfl⟩ := h.roots hr
            exact Finset.mem_image_of_mem _ (Finset.mem_univ t)
          have hcard : (Finset.univ.image fun t => (s.tasks t).pageDir).card < 254 :=
            Nat.lt_of_le_of_lt Finset.card_image_le (by decide)
          rw [h.unleaked_iff, copy_intact_iff h.inv hl hroots hcard hroot,
            or_iff_right (Nat.not_lt.mpr hl)]
      | some t =>
          rw [hslot] at hfail
          exact absurd hfail (tidResult_not_failed t)
  · have hnot : (!isUserPtr childRip || !isUserPtr childRsp) = true := by
      rw [← Bool.not_and, Bool.eq_false_of_not_eq_true hptr]
      rfl
    rw [if_pos hnot]
    exact iff_of_true (Unleaked.refl s) fun hc => absurd hc hptr

/-! ## SYS_MMAP -/

theorem SysInv.mmap_unleaked_iff (h : SysInv s own) (ht : alive s tid = true)
    (hbase : s.mmapNextVa ≠ 0) (n : Nat)
    (hfail : SysCall.Fails (.mmap n) (sysCall s tid (.mmap n)).2) :
    Unleaked s (sysCall s tid (.mmap n)).1 ↔ Clean s tid (.mmap n) := by
  have hroot := h.live ht
  simp only [sysCall, Clean, sysMmap, if_neg (h.inv.root_pos hroot)] at hfail ⊢
  by_cases hn : n = 0 ∨ 256 < n
  · rw [if_pos hn]
    exact iff_of_true (Unleaked.refl s) fun hzero hmax =>
      absurd hn (not_or.mpr ⟨hzero, Nat.not_lt.mpr hmax⟩)
  rw [if_neg hn] at hfail ⊢
  by_cases hlimit : mmapAnonLimit < s.mmapNextVa + n * 0x1000
  · rw [if_pos hlimit]
    exact iff_of_true (Unleaked.refl s) fun _ _ hc => absurd hlimit (Nat.not_lt.mpr hc)
  rw [if_neg hlimit] at hfail ⊢
  have hok : (mmapLoop s.vm (s.tasks tid).pageDir s.mmapNextVa 0 n).2 = false := by
    by_contra hc
    rw [if_pos (Bool.eq_true_of_not_eq_false hc)] at hfail
    exact hbase (Option.some.inj hfail)
  have hbound : regionVa s.mmapNextVa (0 + n) ≤ 2 ^ 30 := by
    rw [Nat.zero_add, regionVa]
    exact (Nat.le_of_not_lt hlimit).trans (by decide)
  have hstart : Partway s.vm own s.vm own (s.tasks tid).pageDir s.mmapNextVa 0 :=
    ⟨h.inv, h.inv, Grow.refl own, rfl, id, Or.inl, by simp, fun _ => rfl, fun _ _ => rfl,
      fun _ _ => rfl, by simp, by simp⟩
  obtain ⟨hzero, hmax⟩ := not_or.mp hn
  rw [if_neg (by simp [hok]), h.unleaked_iff, hstart.loop_intact_iff hroot hbound hok]
  simp only [Nat.zero_le, forall_const, hzero, ne_eq, not_false_eq_true, Nat.le_of_not_lt hmax,
    Nat.le_of_not_lt hlimit]

end Failed

/-! ## Every run -/

/-- The region of `SYS_MMAP` only moves up. -/
theorem step_mmapNextVa (s : Sys) (op : Op) : s.mmapNextVa ≤ (step s op).mmapNextVa := by
  unfold step
  split
  case isFalse => exact Nat.le_refl _
  case isTrue =>
    cases op with
    | exec img =>
        simp only [perform, exec, taskCreateUser]
        split
        · exact Nat.le_refl _
        · cases freeSlot s.tasks <;> exact Nat.le_refl _
    | execReplace tid img =>
        simp only [perform, execReplace]
        split_ifs <;> exact Nat.le_refl _
    | fork tid =>
        simp only [perform, fork]
        split_ifs
        · exact Nat.le_refl _
        · exact Nat.le_refl _
        · cases freeSlot s.tasks <;> exact Nat.le_refl _
    | threadCreate tid =>
        simp only [perform, threadCreate]
        cases freeSlot s.tasks <;> exact Nat.le_refl _
    | brk tid newEnd memKb =>
        simp only [perform, brk]
        split_ifs <;> exact Nat.le_refl _
    | mmap tid n =>
        simp only [perform, mmap]
        split_ifs
        · exact Nat.le_refl _
        · exact Nat.le_add_right _ _
        · exact Nat.le_refl _
    | munmap tid va n =>
        simp only [perform, munmap]
        split_ifs <;> exact Nat.le_refl _
    | mmapFile tid n full =>
        simp only [perform, mmapFile]
        split_ifs <;> exact Nat.le_refl _
    | munmapFile tid va n =>
        simp only [perform, munmapFile]
        split_ifs <;> exact Nat.le_refl _
    | cowFault tid va => exact Nat.le_refl _
    | demandFault tid va =>
        simp only [perform, demandFault]
        split_ifs <;> exact Nat.le_refl _
    | exit tid =>
        simp only [perform, exit]
        split <;> exact Nat.le_refl _

theorem reach_mmapNextVa {s : Sys} (r : Reach Start Guard step s) :
    mmapAnonBase ≤ s.mmapNextVa := by
  apply r.invariant (P := fun s => mmapAnonBase ≤ s.mmapNextVa)
  · exact fun t ht => Nat.le_of_eq ht.mmapNextVa.symm
  · exact fun t op ht _ => ht.trans (step_mmapNextVa t op)

/-- In every reachable state, a call that fails leaves the free frames and the translations of the
live address spaces as they were if and only if it finds what it needs. -/
theorem failed_call_unleaked_iff {s : Sys} (r : Reach Start Guard step s) {tid : Tid}
    (ht : alive s tid = true) (call : SysCall) (hfail : call.Fails (sysCall s tid call).2) :
    Unleaked s (sysCall s tid call).1 ↔ Clean s tid call := by
  have hok : SysOk s := r.invariant (fun _ h => h.ok) fun _ _ h hg => step_ok h hg
  obtain ⟨own, h⟩ := hok
  cases call with
  | exec ebx file => exact h.exec_unleaked_iff ebx file hfail
  | execReplace ebx file => exact h.execReplace_unleaked_iff ebx file hfail
  | fork childRip childRsp => exact h.fork_unleaked_iff ht childRip childRsp hfail
  | mmap n =>
      have hbase : s.mmapNextVa ≠ 0 :=
        Nat.ne_of_gt (Nat.lt_of_lt_of_le (by decide) (reach_mmapNextVa r))
      exact h.mmap_unleaked_iff ht hbase n hfail

/-- A program with one page is running. -/
def oneProgram : Sys := step boot (.exec ⟨[0xC00000], 0xC00000⟩)

theorem oneProgram_reach : Reach Start Guard step oneProgram :=
  Reach.next _ (Reach.start boot_start) fun _ => boot_freeFrames

/-- One byte that is not an ELF header. -/
def notElf : ElfFile := ⟨fun _ => 0, 1⟩

/-- The program replaces itself by a file that is no ELF file: the call fails after it has taken
the tables, and gives them back. -/
theorem execReplace_notElf_unleaked :
    (SysCall.execReplace 0xC00000 (some notElf)).Fails
        (sysCall oneProgram 1 (.execReplace 0xC00000 (some notElf))).2 ∧
      Unleaked oneProgram (sysCall oneProgram 1 (.execReplace 0xC00000 (some notElf))).1 := by
  have hfail : (SysCall.execReplace 0xC00000 (some notElf)).Fails
      (sysCall oneProgram 1 (.execReplace 0xC00000 (some notElf))).2 := by
    decide +kernel
  have halive : alive oneProgram 1 = true := by
    decide +kernel
  refine ⟨hfail, (failed_call_unleaked_iff oneProgram_reach halive _ hfail).mpr fun f hf => ?_⟩
  obtain rfl : notElf = f := Option.some.inj hf
  have hpages : notElf.image.pages = [] := by
    decide
  rw [hpages]
  exact Or.inr (allFit_nil _ _)

/-- The program starts the file: the call fails, and the three tables are lost. -/
theorem exec_notElf_leaks :
    ¬ ∀ s, Reach Start Guard step s → ∀ tid, alive s tid = true → ∀ call : SysCall,
      call.Fails (sysCall s tid call).2 → Unleaked s (sysCall s tid call).1 := by
  intro h
  have hfacts : alive oneProgram 1 = true ∧ (SysCall.exec 0xC00000 (some notElf)).Fails
      (sysCall oneProgram 1 (.exec 0xC00000 (some notElf))).2 ∧
      oneProgram.vm.used 2057 = false ∧
      (sysCall oneProgram 1 (.exec 0xC00000 (some notElf))).1.vm.used 2057 = true := by
    decide +kernel
  obtain ⟨halive, hfail, hfree, hused⟩ := hfacts
  have hframes := (h _ oneProgram_reach 1 halive _ hfail).frames
  have hmem : 2057 ∈ freeFrames oneProgram.vm :=
    mem_freeFrames.mpr ⟨⟨by decide, by decide⟩, hfree⟩
  rw [← hframes, mem_freeFrames, hused] at hmem
  exact absurd hmem.2 (by decide)

end OriaOS.Vmm
