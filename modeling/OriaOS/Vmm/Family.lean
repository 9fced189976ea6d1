import OriaOS.Vmm.Fork
import OriaOS.Lib.SharedPages

/-!
# A family of processes

Processes with an address space each, named by their page directory, and the
contents of the frames. A program starts with an empty address space and gets
pages from program loading, `brk`, `mmap` or demand paging, which all map a new
frame where the process has no page. It forks, writes to its pages, takes write
faults and exits, in any order. A store that faults is repeated by the processor,
so fault and store are steps of their own.

Next to the family stands what each process should find in its memory if it had
it for itself: no operation of another process occurs there.
-/

namespace OriaOS.Vmm

open OriaOS.Lib

variable {n r : Nat} {own' : Owners} {e : PTE} {v : Vm}

/-- The bytes of a page. -/
abbrev Page := Fin 4096 → UInt8

/-- Page tables, the contents of the frames, and the page directories of the live
processes. -/
structure Family where
  vm : Vm
  data : Nat → Page
  procs : List Nat

/-- What becomes of the memory of a process. -/
inductive Event
  | mapped (r n : Nat) (p : Page)
  | forked (r child : Nat)
  | stored (r n : Nat) (k : Fin 4096) (b : UInt8)
  | gone (r : Nat)
  | silent

/-! ## Operations -/

namespace Family

/-- A program is started in a new address space. -/
def create (s : Family) : Family × Event :=
  if s.procs.length < maxTasks then
    let (v, dir) := createPageDir s.vm
    if dir = 0 then ({ s with vm := v }, .silent)
    else ({ s with vm := v, procs := dir :: s.procs }, .silent)
  else (s, .silent)

/-- A process gets page `n` with contents `p`. The mapping gives up silently, and
the frame is not given back. -/
def map (s : Family) (r n : Nat) (p : Page) : Family × Event :=
  if (leafOf s.vm r (pageVa n)).isSome then (s, .silent)
  else
    let (v, f) := allocFrame s.vm
    if f = 0 then ({ s with vm := v }, .silent)
    else
      let v := mapPage (zeroFrame v f) r (pageVa n) (PTE.userRW f)
      ({ s with vm := v, data := Function.update s.data f p },
        if (leafOf v r (pageVa n)).isSome then .mapped r n p else .silent)

/-- `SYS_FORK`; without a slot for the child its address space is torn down. -/
def fork (s : Family) (r : Nat) : Family × Event :=
  let (v, child) := createPageDir s.vm
  if child = 0 then ({ s with vm := v }, .silent)
  else
    let v := copyCow v r child
    if s.procs.length < maxTasks then
      ({ s with vm := v, procs := child :: s.procs }, .forked r child)
    else ({ s with vm := freeUserMemory v child }, .silent)

/-- `handle_cow_fault`: the processor reports a write to a page that is present
and not writable. The frame behind the page gets the contents of the frame that
was there, which is the same one unless the page was copied. -/
def writeFault (s : Family) (r n : Nat) : Family × Event :=
  match leafOf s.vm r (pageVa n) with
  | none => (s, .silent)
  | some e =>
      if e.writable then (s, .silent)
      else
        let v := (cowFault s.vm r (pageVa n)).1
        let f := getPhys v r (pageVa n)
        ({ s with vm := v, data := Function.update s.data f (s.data e.frame) }, .silent)

/-- The processor stores a byte, if the entry allows it. -/
def store (s : Family) (r n : Nat) (k : Fin 4096) (b : UInt8) : Family × Event :=
  match leafOf s.vm r (pageVa n) with
  | none => (s, .silent)
  | some e =>
      if e.writable then
        ({ s with
          data := Function.update s.data e.frame (Function.update (s.data e.frame) k b) },
          .stored r n k b)
      else (s, .silent)

/-- A process ends. -/
def exit (s : Family) (r : Nat) : Family × Event :=
  ({ s with vm := freeUserMemory s.vm r, procs := s.procs.filter (· ≠ r) }, .gone r)

inductive Op
  | create
  | map (r n : Nat) (p : Page)
  | fork (r : Nat)
  | writeFault (r n : Nat)
  | store (r n : Nat) (k : Fin 4096) (b : UInt8)
  | exit (r : Nat)

/-- Only live processes act, and only on pages of user space. -/
def Op.valid (s : Family) : Op → Bool
  | .create => true
  | .fork r | .exit r => decide (r ∈ s.procs)
  | .map r n _ | .writeFault r n | .store r n _ _ => decide (r ∈ s.procs ∧ n < userPages)

def perform (s : Family) : Op → Family × Event
  | .create => create s
  | .map r n p => map s r n p
  | .fork r => fork s r
  | .writeFault r n => writeFault s r n
  | .store r n k b => store s r n k b
  | .exit r => exit s r

def step (s : Family) (op : Op) : Family × Event :=
  if op.valid s then s.perform op else (s, .silent)

/-- What a process reads at a page. -/
def read (s : Family) (r n : Nat) : Option Page :=
  (leafOf s.vm r (pageVa n)).map fun e => s.data e.frame

/-- Memory has been set up and no program has been started. -/
structure Start (s : Family) : Prop where
  booted : Booted s.vm
  procs : s.procs = []

end Family

/-! ## Private memories -/

/-- What an event makes of memories that nobody shares. -/
def remember (m : Memories Nat Nat Page) : Event → Memories Nat Nat Page
  | .mapped r n p => m.set r n (some p)
  | .forked r child => Function.update m child (m r)
  | .stored r n k b => m.set r n ((m r n).map fun p => Function.update p k b)
  | .gone r => Function.update m r fun _ => none
  | .silent => m

/-- A family and the private memories of its processes. -/
structure Watched where
  family : Family
  memories : Memories Nat Nat Page

def Watched.step (s : Watched) (op : Family.Op) : Watched :=
  let (t, ev) := s.family.step op
  ⟨t, remember s.memories ev⟩

structure Watched.Start (s : Watched) : Prop where
  family : s.family.Start
  memories : s.memories = fun _ _ => none

/-! ## What the processes see -/

namespace Family

variable {s : Family} {own : Owners}

/-- The entries of the live processes. -/
def entries (s : Family) : Memories Nat Nat PTE :=
  fun r n => if r ∈ s.procs ∧ n < userPages then leafOf s.vm r (pageVa n) else none

/-- Page tables as the invariant has them, one address space for each process,
no page in a frame of the kernel, and no frame behind a writable entry shared. -/
structure Ok (s : Family) (own : Owners) : Prop where
  inv : Inv s.vm own
  roots : ∀ {r}, IsRoot own r ↔ r ∈ s.procs
  kernel : KernelMapped s.vm own
  low : ∀ {r n e}, s.entries r n = some e → reservedFrames ≤ e.frame
  exclusive : Exclusive PTE.frame (fun e => e.writable = true) s.entries

theorem entries_of_live (hr : r ∈ s.procs) (hn : n < userPages) :
    s.entries r n = leafOf s.vm r (pageVa n) := by
  rw [entries, if_pos ⟨hr, hn⟩]

theorem entries_of_dead (hr : r ∉ s.procs) (n : Nat) : s.entries r n = none := by
  rw [entries, if_neg fun hc => hr hc.1]

theorem entries_eq_some :
    s.entries r n = some e ↔
      (r ∈ s.procs ∧ n < userPages) ∧ leafOf s.vm r (pageVa n) = some e := by
  by_cases hrn : r ∈ s.procs ∧ n < userPages
  · simp [entries, hrn]
  · simp [entries, hrn]

/-- Without processes there is nothing to see. -/
theorem Start.ok (h : s.Start) : s.Ok fun _ => none := by
  have hnone : s.entries = fun _ _ => none := by
    funext r n
    exact entries_of_dead (by simp [h.procs]) n
  refine ⟨h.booted.inv, ?_, ?_, ?_, ?_⟩
  · simp [h.procs]
  · intro pd r k hpd
    cases hpd
  · simp [hnone]
  · simp [hnone, Exclusive]

theorem Ok.root (h : s.Ok own) (hr : r ∈ s.procs) : IsRoot own r := h.roots.mpr hr

/-- A frame without owner is no live process. -/
theorem Ok.not_live (h : s.Ok own) (hr : own r = none) : r ∉ s.procs := by
  intro hin
  have hroot := h.root hin
  rw [IsRoot, hr] at hroot
  cases hroot

theorem filter_cons_self {l : List Nat} (h : r ∉ l) : (r :: l).filter (· ≠ r) = l := by
  rw [List.filter_cons_of_neg (by simp)]
  apply List.filter_eq_self.mpr
  intro a ha
  have har : a ≠ r := by
    rintro rfl
    exact h ha
  simpa using har

theorem Ok.rootsIn (h : s.Ok own) : RootsIn own s.procs.toFinset :=
  fun hr => List.mem_toFinset.mpr (h.roots.mp hr)

/-- A frame that is free is behind no entry. -/
theorem Ok.unnamed (h : s.Ok own) {f : Nat} (hf : f ∈ freeFrames s.vm) :
    Unnamed PTE.frame s.entries f := by
  intro r n e he hframe
  obtain ⟨⟨hr, hn⟩, hleaf⟩ := entries_eq_some.mp he
  have hpage := h.inv.leafOf_page (h.root hr) hleaf (h.low he)
  rw [hframe] at hpage
  exact h.inv.not_free hpage hf

/-- A counter of one at most means that no other process has the page. -/
theorem Ok.alone (h : s.Ok own) (he : s.entries r n = some e)
    (hcow : e.frame < totalFrames → s.vm.cow e.frame ≤ 1) :
    Alone PTE.frame s.entries r n e.frame := by
  intro r' n' e' he' hf
  have hlow := h.low he
  obtain ⟨⟨hr, hn⟩, hleaf⟩ := entries_eq_some.mp he
  obtain ⟨⟨hr', hn'⟩, hleaf'⟩ := entries_eq_some.mp he'
  have hrange := h.inv.range (h.inv.leafOf_page (h.root hr) hleaf hlow)
  obtain ⟨hrr, hpath, hidx⟩ := h.inv.alone_of_cow (h.root hr) (h.root hr') hleaf hleaf' hlow
    (hcow hrange.2.1) hf
  exact ⟨hrr, pageVa_inj hn' hn hpath hidx⟩

/-- One entry of one process has been set. -/
theorem entries_set (hroots : ∀ {r}, r ∈ s.procs → IsRoot own r) (data : Nat → Page)
    (hr : r ∈ s.procs) (hn : n < userPages) (hsets : SetsLeaf s.vm own v r (pageVa n) e) :
    entries { s with vm := v, data := data } = s.entries.set r n (some e) := by
  funext r' n'
  rw [Memories.set_apply]
  by_cases hlive : r' ∈ s.procs ∧ n' < userPages
  · have hat : vaPath (pageVa n') = vaPath (pageVa n) ∧ ptIdx (pageVa n') = ptIdx (pageVa n) ↔
        n' = n :=
      ⟨fun hc => pageVa_inj hlive.2 hn hc.1 hc.2, fun hc => by simp [hc]⟩
    rw [entries_of_live hlive.1 hlive.2]
    simp only [entries, if_pos hlive, hsets (hroots hlive.1), hat]
  · have hne : ¬ (r' = r ∧ n' = n) := by
      rintro ⟨rfl, rfl⟩
      exact hlive ⟨hr, hn⟩
    rw [if_neg hne]
    simp only [entries, if_neg hlive]

/-- All live processes see what they saw. -/
theorem entries_same (data : Nat → Page)
    (hsame : ∀ {r n}, r ∈ s.procs → n < userPages →
      leafOf v r (pageVa n) = leafOf s.vm r (pageVa n)) :
    entries { s with vm := v, data := data } = s.entries := by
  funext r n
  by_cases hlive : r ∈ s.procs ∧ n < userPages
  · simp only [entries, if_pos hlive, hsame hlive.1 hlive.2]
  · simp only [entries, if_neg hlive]

/-! ## How the view of the processes changes -/

/-- An entry can be set to a frame that no other entry names. -/
theorem Ok.set (h : s.Ok own) {data : Nat → Page} (hr : r ∈ s.procs) (hn : n < userPages)
    (hinv : Inv v own') (hgrow : Grow own own') (hkernel : KernelMapped v own')
    (hsets : SetsLeaf s.vm own v r (pageVa n) e) (hlow : reservedFrames ≤ e.frame)
    (halone : Alone PTE.frame s.entries r n e.frame) :
    Ok { s with vm := v, data := data } own' := by
  have hentries := entries_set h.root data hr hn hsets
  refine ⟨hinv, ?_, hkernel, ?_, ?_⟩
  · intro r'
    exact ⟨fun hr' => h.roots.mp (hgrow.roots hr'), fun hr' => hgrow.tables (h.root hr')⟩
  · intro r' n' e' he'
    rw [hentries] at he'
    by_cases hat : r' = r ∧ n' = n
    · rw [hat.1, hat.2, Memories.set_self] at he'
      cases he'
      exact hlow
    · rw [Memories.set_of_ne _ _ hat] at he'
      exact h.low he'
  · rw [hentries]
    exact h.exclusive.set halone

/-- The tables may grow where no live process sees it. -/
theorem Ok.same (h : s.Ok own) {data : Nat → Page} (hinv : Inv v own') (hgrow : Grow own own')
    (hkernel : KernelMapped v own')
    (hsame : ∀ {r n}, r ∈ s.procs → n < userPages →
      leafOf v r (pageVa n) = leafOf s.vm r (pageVa n)) :
    Ok { s with vm := v, data := data } own' := by
  have hentries := entries_same data hsame
  refine ⟨hinv, ?_, hkernel, ?_, ?_⟩
  · intro r
    exact ⟨fun hr => h.roots.mp (hgrow.roots hr), fun hr => hgrow.tables (h.root hr)⟩
  · intro r n e he
    rw [hentries] at he
    exact h.low he
  · rw [hentries]
    exact h.exclusive

theorem Ok.pd (h : s.Ok own) (hr : r ∈ s.procs) : ∃ pd, own pd = some (.table r [0, 0]) :=
  ⟨_, (h.inv.first_tables (h.root hr)).2⟩

/-- The new process sees nothing, the others what they saw. -/
theorem Ok.born (h : s.Ok own) {dir : Nat} (hc : Created s.vm own v own' dir) :
    Ok { s with vm := v, procs := dir :: s.procs } own' ∧
      entries { s with vm := v, procs := dir :: s.procs } = s.entries := by
  have hdir := h.not_live hc.fresh
  have hentries : entries { s with vm := v, procs := dir :: s.procs } = s.entries := by
    funext r n
    by_cases hr : r = dir
    · subst hr
      rw [entries_of_dead hdir]
      unfold entries
      split
      · exact hc.leafOf_new h.inv _
      · rfl
    · by_cases hlive : r ∈ s.procs
      · simp only [entries, List.mem_cons, hlive, or_true, hc.leafOf_old h.inv (h.root hlive)]
      · simp only [entries, List.mem_cons, hlive, hr, or_self, false_and, if_false]
  refine ⟨⟨hc.inv, ?_, hc.kernel h.kernel, ?_, ?_⟩, hentries⟩
  · intro r
    rw [List.mem_cons]
    constructor
    · intro hr
      rcases hc.tables hr with ho | ⟨rfl, -⟩
      · exact Or.inr (h.roots.mp ho)
      · exact Or.inl rfl
    · rintro (rfl | hr)
      · exact hc.root
      · exact (hc.keep (h.root hr)).1
  · intro r n e he
    rw [hentries] at he
    exact h.low he
  · rw [hentries]
    exact h.exclusive

/-- A creation that fails leaves no trace. -/
theorem Ok.unchanged (h : s.Ok own) (hu : Unchanged s.vm v) :
    Ok { s with vm := v } own ∧ entries { s with vm := v } = s.entries := by
  have hsame {r n : Nat} (hr : r ∈ s.procs) (_ : n < userPages) :=
    hu.leafOf h.inv (h.root hr) (pageVa n)
  refine ⟨h.same (hu.inv h.inv) (Grow.refl own) ?_ hsame, entries_same s.data hsame⟩
  apply h.kernel.of_grow (Grow.refl own) h.inv (hu.inv h.inv)
  intro pd r k hpd
  rw [hu.mem pd (h.inv.not_free hpd)]

/-- A process ends: the others see what they saw. -/
theorem Ok.drop (h : s.Ok own) (hr : r ∈ s.procs) :
    ∃ own', Ok { s with vm := freeUserMemory s.vm r, procs := s.procs.filter (· ≠ r) } own' ∧
      (∀ {f r' path}, own' f = some (.table r' path) ↔ own f = some (.table r' path) ∧ r' ≠ r) ∧
      entries { s with vm := freeUserMemory s.vm r, procs := s.procs.filter (· ≠ r) } =
        Function.update s.entries r fun _ => none := by
  obtain ⟨own', hend⟩ := freeUserMemory_stage h.inv (h.root hr)
  have hentries : entries { s with vm := freeUserMemory s.vm r, procs := s.procs.filter (· ≠ r) } =
      Function.update s.entries r fun _ => none := by
    funext r' n
    by_cases hrr : r' = r
    · subst hrr
      rw [Function.update_self]
      exact entries_of_dead (by simp) n
    · rw [Function.update_of_ne hrr]
      simp [entries, hrr, leafOf_of_mem hend.mem]
  refine ⟨own', ⟨hend.inv, ?_, ?_, ?_, ?_⟩, hend.tables, hentries⟩
  · intro r'
    simp only [List.mem_filter, decide_eq_true_eq]
    rw [IsRoot, hend.tables, ← h.roots]
  · intro pd r' k hpd
    rw [hend.mem]
    exact h.kernel (hend.tables.mp hpd).1
  · intro r' n e he
    rw [hentries] at he
    by_cases hrr : r' = r
    · subst hrr
      simp at he
    · rw [Function.update_of_ne hrr] at he
      exact h.low he
  · rw [hentries]
    exact h.exclusive.drop r

/-- Parent and child see the pages of the parent, write-protected. -/
theorem Ok.shared (h : s.Ok own) {parent child : Nat} (hparent : parent ∈ s.procs)
    (hchild : child ∈ s.procs) (hne : parent ≠ child) (hcount : s.procs.length ≤ 254)
    (hempty : ∀ va, leafOf s.vm child va = none)
    (hframes : (neededTables s.vm parent).card ≤ (freeFrames s.vm).card) :
    ∃ own', Ok { s with vm := copyCow s.vm parent child } own' ∧
      entries { s with vm := copyCow s.vm parent child } =
        share PTE.sharing s.entries parent child ∧
      ∀ {n e}, s.entries parent n = some e → 2 ≤ (copyCow s.vm parent child).cow e.frame := by
  obtain ⟨pd, hpd⟩ := h.pd hchild
  obtain ⟨own', hinv, hgrow, hkernel, hcounted, hleaf⟩ := copyCow_spec h.rootsIn
    ((List.toFinset_card_le _).trans hcount) (h.root hparent) (h.root hchild) hne hpd
    (fun hn he => h.low (entries_eq_some.mpr ⟨⟨hparent, hn⟩, he⟩)) h.inv h.kernel hempty hframes
  have hentries : entries { s with vm := copyCow s.vm parent child } =
      share PTE.sharing s.entries parent child := by
    funext r n
    unfold share
    by_cases hlive : r ∈ s.procs ∧ n < userPages
    · rw [entries_of_live hparent hlive.2, entries_of_live hlive.1 hlive.2]
      simp only [entries, if_pos hlive]
      exact hleaf (h.root hlive.1) hlive.2
    · have hnone : (s.entries parent n).map PTE.sharing = none ∨ ¬ (r = parent ∨ r = child) := by
        by_cases hn : n < userPages
        · right
          rintro (rfl | rfl)
          · exact hlive ⟨hparent, hn⟩
          · exact hlive ⟨hchild, hn⟩
        · left
          simp [entries, hn]
      have hdead : s.entries r n = none := by
        simp only [entries, if_neg hlive]
      rcases hnone with hnone | hother
      · rw [hnone, hdead, ite_self]
        simp only [entries, if_neg hlive]
      · rw [if_neg hother, hdead]
        simp only [entries, if_neg hlive]
  refine ⟨own', ⟨hinv, ?_, hkernel, ?_, ?_⟩, hentries,
    fun he => hcounted (entries_eq_some.mp he).1.2 (entries_eq_some.mp he).2⟩
  · intro r
    exact ⟨fun hr => h.roots.mp (hgrow.roots hr), fun hr => hgrow.tables (h.root hr)⟩
  · intro r n e he
    rw [hentries, share] at he
    split at he
    · obtain ⟨e₀, he₀, rfl⟩ := Option.map_eq_some_iff.mp he
      have hlow := h.low he₀
      exact hlow
    · exact h.low he
  · rw [hentries]
    apply h.exclusive.share
    · exact fun _ => rfl
    · exact fun _ hc => by cases hc

/-- A fork that finds its frames: the child is a second owner of the pages of the
parent, and each of them is counted. -/
theorem Ok.forked (h : s.Ok own) {child : Nat} {own₁ : Owners} (hr : r ∈ s.procs)
    (hcount : s.procs.length ≤ maxTasks)
    (hframes : 3 + (neededTables s.vm r).card ≤ (freeFrames s.vm).card)
    (hc : Created s.vm own v own₁ child) :
    ∃ own', Ok { s with vm := copyCow v r child, procs := child :: s.procs } own' ∧
      entries { s with vm := copyCow v r child, procs := child :: s.procs } =
        share PTE.sharing s.entries r child ∧
      ∀ {n e}, s.entries r n = some e → 2 ≤ (copyCow v r child).cow e.frame := by
  obtain ⟨hok, hentries⟩ := h.born hc
  have hne : r ≠ child := by
    rintro rfl
    exact h.not_live hc.fresh hr
  have hneed : neededTables v r = neededTables s.vm r := by
    simp only [neededTables, hc.leafOf_old h.inv (h.root hr)]
  have hfree := hc.free
  have hparent : r ∈ child :: s.procs := List.mem_cons_of_mem _ hr
  have hchild : child ∈ child :: s.procs := List.mem_cons_self
  have hshared := hok.shared hparent hchild hne
    (by simp only [List.length_cons, maxTasks] at hcount ⊢; omega) (hc.leafOf_new h.inv)
    (by change (neededTables v r).card ≤ (freeFrames v).card; rw [hneed]; omega)
  rw [hentries] at hshared
  exact hshared

end Family

end OriaOS.Vmm
