import OriaOS.Vmm.Calls

/-!
# Frames in use are never free

Over all runs: no page and no table of a live address space lies in a frame that
the bitmap has as free, and no frame is released twice. The kernel keeps this in
runs whose releases hit frames that nobody else uses. It does not check that:
`SYS_MUNMAP` and `SYS_MUNMAP_FILE` release a frame whatever its counter says, the
exit of a thread releases its TLS frame wherever that frame is by now, and an
address space goes with the process that created it, though threads of its
threads still run there.
-/

namespace OriaOS.Vmm

open OriaOS.Lib

/-! ## The property -/

/-- No live address space uses a free frame, and none was released twice. -/
structure FrameSafe (s : Sys) : Prop where
  pages : ∀ t, alive s t = true → ∀ va, getPhys s.vm (s.tasks t).pageDir va < totalFrames →
    s.vm.used (getPhys s.vm (s.tasks t).pageDir va) = true
  tables : ∀ t, alive s t = true → ∀ va, ∀ f ∈ walk s.vm (s.tasks t).pageDir va,
    s.vm.used f = true
  once : s.vm.doubleFree = false

theorem SysOk.frameSafe {s : Sys} (h : SysOk s) : FrameSafe s := by
  obtain ⟨own, h⟩ := h
  constructor
  · exact fun t ht va hlt => h.inv.getPhys_used (h.live ht) hlt
  · exact fun t ht va f hf => h.inv.walk_used (h.live ht) hf
  · exact h.inv.once

/-! ## Runs -/

/-- Memory after `pmm_init`: the kernel has the reserved frames, and 2 MB pages
fill the boot directories above 1 GB. -/
structure Booted (v : Vm) : Prop where
  used : ∀ f, v.used f = decide (f < reservedFrames)
  cow : ∀ f, v.cow f = 0
  once : v.doubleFree = false
  boot : ∀ f i, IsBootPd f → i < 512 → v.mem f i = PTE.kernelLarge ((f - 3) * 262144 + i * 512)

/-- Nothing is owned yet. -/
theorem Booted.inv {v : Vm} (h : Booted v) : Inv v fun _ => none := by
  constructor
  case reserved =>
    intro f hf
    rw [h.used]
    exact decide_eq_true hf
  case byte =>
    intro f
    rw [h.cow]
    exact Nat.zero_le _
  case boot =>
    intro f i hf hi
    rw [h.boot f i hf hi]
    refine ⟨rfl, rfl, Or.inr ?_⟩
    have := hf.1
    simp only [totalFrames, PTE.kernelLarge]
    omega
  case once => exact h.once
  all_goals simp

/-- After `pmm_init` and before the first program: the kernel has the reserved
frames, and 2 MB pages fill the boot directories above 1 GB. -/
structure Start (s : Sys) : Prop where
  used : ∀ f, s.vm.used f = decide (f < reservedFrames)
  cow : ∀ f, s.vm.cow f = 0
  once : s.vm.doubleFree = false
  boot : ∀ f i, IsBootPd f → i < 512 →
    s.vm.mem f i = PTE.kernelLarge ((f - 3) * 262144 + i * 512)
  tasks : ∀ t, alive s t = false
  mmapNextVa : s.mmapNextVa = mmapAnonBase
  mmapFileNextVa : s.mmapFileNextVa = mmapFileBase

theorem Start.booted {s : Sys} (h : Start s) : Booted s.vm := ⟨h.used, h.cow, h.once, h.boot⟩

theorem Start.ok {s : Sys} (h : Start s) : SysOk s := by
  refine ⟨fun _ => none, ?_, ?_, ?_, ?_⟩
  · exact h.booted.inv
  · intro t ht
    rw [h.tasks] at ht
    cases ht
  · intro r hr
    cases hr
  · intro t p ht
    rw [h.tasks] at ht
    cases ht

/-- The frames the bitmap can hand out. -/
def freeFrames (v : Vm) : Finset Nat :=
  (Finset.Ico reservedFrames totalFrames).filter fun f => v.used f = false

/-- What a call of a live task needs from the state it is made in. -/
def Allowed (s : Sys) : Op → Prop
  | .exec _ => 3 ≤ (freeFrames s.vm).card
  | .execReplace tid img => img.entry ≠ 0 → ∀ t, alive s t = true → t ≠ tid →
      (s.tasks t).pageDir ≠ (s.tasks tid).pageDir
  | .munmap tid va n => mmapAnonBase ≤ va / 0x1000 * 0x1000 → ∀ k < n,
      Unshared s (s.tasks tid).pageDir (va / 0x1000 * 0x1000 + k * 0x1000)
  | .munmapFile tid va n => ∀ k < n,
      Unshared s (s.tasks tid).pageDir (va / 0x1000 * 0x1000 + k * 0x1000)
  | .exit tid =>
      if (s.tasks tid).isThread then ThreadExitOk s tid else ProcessExitOk s tid
  | _ => True

def Guard (s : Sys) (op : Op) : Prop := op.caller.all (alive s) = true → Allowed s op

/-! ## Frames for a new address space -/

section FreeFrames
variable {v : Vm}

theorem mem_freeFrames {f : Nat} : f ∈ freeFrames v ↔
    (reservedFrames ≤ f ∧ f < totalFrames) ∧ v.used f = false := by
  simp [freeFrames]

theorem free_ne_zero {f : Nat} (hf : f ∈ freeFrames v) : f ≠ 0 := by
  rintro rfl
  exact absurd (mem_freeFrames.mp hf).1.1 (by decide)

theorem free_not_boot {f : Nat} (hf : f ∈ freeFrames v) : ¬ IsBootPd f :=
  fun hboot => absurd ((mem_freeFrames.mp hf).1.1.trans hboot.2) (by decide)

/-- An allocation succeeds while there are free frames, and takes one of them. -/
theorem allocFrame_free {n : Nat} (h : n + 1 ≤ (freeFrames v).card) :
    (allocFrame v).2 ≠ 0 ∧ n ≤ (freeFrames (allocFrame v).1).card := by
  have hne : (freeFrames v).Nonempty := Finset.card_pos.mp (by omega)
  obtain ⟨g, hg⟩ := hne
  unfold allocFrame
  cases hfind : (List.range' reservedFrames (totalFrames - reservedFrames)).find?
      fun f => !v.used f with
  | none =>
      obtain ⟨hrange, hfree⟩ := mem_freeFrames.mp hg
      have := List.find?_eq_none.mp hfind g (by
        simp only [List.mem_range'_1, totalFrames, reservedFrames] at hrange ⊢
        omega)
      simp [hfree] at this
  | some f =>
      have hmem := List.mem_of_find?_eq_some hfind
      rw [List.mem_range'_1] at hmem
      constructor
      · intro hz
        have := hmem.1
        rw [show f = 0 from hz] at this
        exact absurd this (by decide)
      · have hsub : (freeFrames v).erase f ⊆
            freeFrames { v with used := Function.update v.used f true } := by
          intro q hq
          obtain ⟨hqf, hq⟩ := Finset.mem_erase.mp hq
          obtain ⟨hrange, hfree⟩ := mem_freeFrames.mp hq
          exact mem_freeFrames.mpr ⟨hrange, by simpa [hqf] using hfree⟩
        have hcard := Finset.card_le_card hsub
        have := Finset.pred_card_le_card_erase (s := freeFrames v) (a := f)
        dsimp only
        omega

theorem createPageDir_ne_zero (h : 3 ≤ (freeFrames v).card) : (createPageDir v).2 ≠ 0 := by
  obtain ⟨hz₁, hn₁⟩ := allocFrame_free h
  obtain ⟨hz₂, hn₂⟩ := allocFrame_free (v := zeroFrame (allocFrame v).1 (allocFrame v).2) hn₁
  obtain ⟨hz₃, -⟩ := allocFrame_free (n := 0) (v := zeroFrame
    (allocFrame (zeroFrame (allocFrame v).1 (allocFrame v).2)).1
    (allocFrame (zeroFrame (allocFrame v).1 (allocFrame v).2)).2) hn₂
  simp only [createPageDir, hz₁, hz₂, hz₃, if_false, ne_eq, not_false_eq_true]

end FreeFrames

/-! ## Every run -/

/-- One call that is allowed keeps the invariant. -/
theorem step_ok {s : Sys} (h : SysOk s) {op : Op} (hg : Guard s op) : SysOk (step s op) := by
  unfold step
  split
  case isFalse => exact h
  case isTrue hcaller =>
    have hallowed := hg hcaller
    obtain ⟨own, h⟩ := h
    cases op with
    | exec img => exact exec_ok h img (createPageDir_ne_zero hallowed)
    | execReplace tid img => exact execReplace_ok h hcaller img hallowed
    | fork tid => exact fork_ok h hcaller
    | threadCreate tid => exact threadCreate_ok h hcaller
    | brk tid newEnd memKb => exact brk_ok h hcaller newEnd memKb
    | mmap tid n => exact mmap_ok h hcaller n
    | munmap tid va n => exact munmap_ok h hcaller va n hallowed
    | mmapFile tid n full => exact mmapFile_ok h hcaller n full
    | munmapFile tid va n => exact munmapFile_ok h hcaller va n hallowed
    | cowFault tid va =>
        exact h.grow (sameTasks_vm s _ _ _) (cowFault_inv h.inv (h.live hcaller) va)
    | demandFault tid va => exact demandFault_ok h hcaller va
    | exit tid =>
        cases hthread : (s.tasks tid).isThread with
        | true =>
            rw [Allowed, if_pos hthread] at hallowed
            exact exit_thread_ok h hcaller hthread hallowed
        | false =>
            rw [Allowed, if_neg (by simp [hthread])] at hallowed
            exact exit_process_ok h hcaller hthread hallowed

/-- In every run whose calls are allowed, no frame in use is ever free and none
is released twice. -/
theorem frames_safe {s : Sys} (r : Reach Start Guard step s) : FrameSafe s := by
  apply SysOk.frameSafe
  exact r.invariant (fun _ h => h.ok) fun _ _ h hg => step_ok h hg

/-- The state after boot, with the shell on the boot tables. -/
def boot : Sys where
  vm :=
    { mem := fun f i =>
        if 4 ≤ f ∧ f ≤ 6 then PTE.kernelLarge ((f - 3) * 262144 + i * 512) else PTE.zero
      used := fun f => decide (f < reservedFrames)
      cow := fun _ => 0
      doubleFree := false }
  tasks := fun t => ⟨t = 0, false, none, if t = 0 then 1 else 0, 0, 0⟩
  mmapNextVa := mmapAnonBase
  mmapFileNextVa := mmapFileBase

theorem boot_start : Start boot where
  used := fun _ => rfl
  cow := fun _ => rfl
  once := rfl
  boot := by
    intro f i hf _
    exact if_pos hf
  tasks := by
    intro t
    by_cases ht : t = 0
    · simp [alive, ht]
    · simp [alive, boot, ht]
  mmapNextVa := rfl
  mmapFileNextVa := rfl

theorem boot_freeFrames : 3 ≤ (freeFrames boot.vm).card := by
  have hsub : ({2048, 2049, 2050} : Finset Nat) ⊆ freeFrames boot.vm := by
    intro f hf
    simp only [Finset.mem_insert, Finset.mem_singleton] at hf
    refine mem_freeFrames.mpr ⟨?_, ?_⟩
    · simp only [reservedFrames, totalFrames]
      omega
    · simp only [boot, reservedFrames, decide_eq_false_iff_not]
      omega
  exact Finset.card_le_card hsub

/-- A program with one page that maps a page and unmaps it again. -/
def mapUnmapRun : List Op :=
  [.exec ⟨[0xC00000], 0xC00000⟩, .mmap 1 1, .munmap 1 0x900000 1]

/-- A task that is alone may unmap what it likes. -/
theorem guard_munmap_of_alone {s : Sys} {tid : Tid} (h : ∀ t, alive s t = true → t = tid)
    (va n : Nat) : Guard s (.munmap tid va n) := by
  intro _ _ k _ _ _ t ht hdir
  rw [h t ht] at hdir
  exact absurd rfl hdir

theorem frames_safe_map_unmap : FrameSafe (mapUnmapRun.foldl step boot) := by
  simp only [mapUnmapRun, List.foldl_cons, List.foldl_nil]
  have halone : ∀ t : Tid, alive (step (step boot (.exec ⟨[0xC00000], 0xC00000⟩)) (.mmap 1 1)) t =
      true → t = 1 := by
    decide +kernel
  apply frames_safe
  refine Reach.next _ (Reach.next _ (Reach.next _ (Reach.start boot_start) ?_) ?_) ?_
  · exact fun _ => boot_freeFrames
  · exact fun _ => trivial
  · exact guard_munmap_of_alone halone 0x900000 1

/-- A process unmaps the TLS page of its thread, then the thread exits. -/
def tlsRun : List Op :=
  [.exec ⟨[0xC00000], 0xC00000⟩, .threadCreate 1, .munmapFile 1 0x802000 1, .exit 2]

theorem tls_frame_released_twice : ¬ ∀ s, Reach Start anyInput step s → FrameSafe s := by
  intro h
  have hsafe := h _ ((Reach.start boot_start).foldl tlsRun)
  have hfreed : (tlsRun.foldl step boot).vm.doubleFree = true := by
    decide +kernel
  rw [hsafe.once] at hfreed
  cases hfreed

end OriaOS.Vmm
