import OriaOS.Vmm.Family

/-!
# Processes do not see each other's writes

In every run of a family in which forks find frames for the page tables of the
child, each process reads what it wrote last since its fork, and otherwise what
its parent had at that moment. The counters only play a part where a write fault
leaves the page in its frame: a counter of one at most means that no other
process maps it, however far the counter has drifted above the number of
mappers.
-/

namespace OriaOS.Vmm

open OriaOS.Lib

variable {n r : Nat} {s : Watched} {v w : Vm}

namespace Family

variable {s : Family} {own : Owners} {m : Memories Nat Nat Page}

/-- The family shows its processes the memories `m`. -/
def Shows (s : Family) (m : Memories Nat Nat Page) : Prop :=
  s.procs.length ≤ maxTasks ∧ ∃ own, s.Ok own ∧ behind PTE.frame s.entries s.data = m

/-! ## Pages and faults -/

theorem map_shows (h : s.Shows m) (hr : r ∈ s.procs) (hn : n < userPages) (p : Page) :
    (map s r n p).1.Shows (remember m (map s r n p).2) := by
  obtain ⟨hcount, own, h, rfl⟩ := h
  unfold map
  split
  · exact ⟨hcount, own, h, rfl⟩
  rename_i hnone
  rw [Option.not_isSome_iff_eq_none] at hnone
  rcases allocFrame_eq s.vm with ⟨heq, -⟩ | ⟨f, hf, heq⟩
  · rw [heq]
    exact ⟨hcount, own, h, rfl⟩
  rw [heq]
  dsimp only
  rw [if_neg (free_ne_zero hf), ← takeZeroed]
  obtain ⟨pd, hpd⟩ := h.pd hr
  have hroot := h.root hr
  rcases mapNew_spec h.inv hroot hpd (pageVa_user hn) hf with ⟨hfail, -⟩ | ⟨own', hmap⟩
  · have hleaf {r' n' : Nat} (hr' : r' ∈ s.procs) :=
      (h.inv.took_zeroed hf).leafOf h.inv (h.root hr') (pageVa n')
    rw [hfail, hleaf hr, hnone]
    refine ⟨hcount, own, h.same (h.inv.takeZeroed hf).1 (Grow.refl own) ?_ fun hr' _ => hleaf hr',
      ?_⟩
    · apply h.kernel.of_grow (Grow.refl own) h.inv (h.inv.takeZeroed hf).1
      intro pd' r' k hpd'
      have hne : pd' ≠ f := by
        rintro rfl
        exact h.inv.not_free hpd' hf
      simp [takeZeroed, hne]
    · rw [entries_same _ fun hr' _ => hleaf hr']
      exact behind_unnamed (h.unnamed hf) p
  · have hleaf : leafOf (mapPage (takeZeroed s.vm f) r (pageVa n) (PTE.userRW f)) r (pageVa n) =
        some (PTE.userRW f) := by
      rw [hmap.sets hroot, if_pos ⟨rfl, rfl, rfl⟩]
    rw [hleaf]
    refine ⟨hcount, own', h.set hr hn hmap.inv hmap.grow (hmap.kernel h.kernel) hmap.sets
      (mem_freeFrames.mp hf).1.1 (h.unnamed hf).alone, ?_⟩
    rw [entries_set h.root _ hr hn hmap.sets]
    exact behind_fresh (e := PTE.userRW f) (h.unnamed hf) p

/-- A write fault changes the frame behind the page at most. -/
theorem writeFault_shows (h : s.Shows m) (hr : r ∈ s.procs) (hn : n < userPages) :
    (writeFault s r n).1.Shows (remember m (writeFault s r n).2) := by
  obtain ⟨hcount, own, h, rfl⟩ := h
  have hroot := h.root hr
  unfold writeFault
  cases hleaf : leafOf s.vm r (pageVa n) with
  | none => exact ⟨hcount, own, h, rfl⟩
  | some e =>
      dsimp only
      split
      · exact ⟨hcount, own, h, rfl⟩
      have hentry : s.entries r n = some e := (entries_of_live hr hn).trans hleaf
      have hseen : behind PTE.frame s.entries s.data r n = some (s.data e.frame) := by
        rw [behind, hentry]
        rfl
      have hframe {v : Vm} {own' : Owners} {f : Nat} (hinv : Inv v own') (hgrow : Grow own own')
          (hsets : SetsLeaf s.vm own v r (pageVa n) (PTE.userRW f)) :
          getPhys v r (pageVa n) = f := by
        apply hinv.getPhys_of_leaf (hgrow.tables hroot) (e := PTE.userRW f)
        rw [hsets hroot, if_pos ⟨rfl, rfl, rfl⟩]
      rcases cowFault_spec h.inv hroot (pageVa n) with
        hsame | ⟨e', he', own', hinv, hgrow, hkernel, ⟨f, hf, -, hsets⟩ |
          ⟨hcow, -, -, -, hsets⟩⟩
      · rw [congrArg Prod.fst hsame, h.inv.getPhys_of_leaf hroot hleaf, Function.update_eq_self]
        exact ⟨hcount, own, h, rfl⟩
      · -- The page moves to a new frame that holds its contents.
        rw [hframe hinv hgrow hsets]
        refine ⟨hcount, own', h.set hr hn hinv hgrow (hkernel h.kernel) hsets
          (mem_freeFrames.mp hf).1.1 (h.unnamed hf).alone, ?_⟩
        rw [entries_set h.root _ hr hn hsets]
        refine (behind_fresh (e := PTE.userRW f) (h.unnamed hf) _).trans ?_
        rw [← hseen, Memories.set_eq_self]
        rfl
      · -- The page stays in its frame, which no other entry names.
        rw [hleaf] at he'
        cases he'
        rw [hframe hinv hgrow hsets, Function.update_eq_self]
        have hlow := h.low hentry
        have halone := h.alone hentry hcow
        refine ⟨hcount, own', h.set hr hn hinv hgrow (hkernel h.kernel) hsets hlow halone, ?_⟩
        rw [entries_set h.root _ hr hn hsets]
        exact behind_reflag (e := PTE.userRW e.frame) hentry rfl

/-- A store goes to a frame that nobody else sees. -/
theorem store_shows (h : s.Shows m) (hr : r ∈ s.procs) (hn : n < userPages) (k : Fin 4096)
    (b : UInt8) : (store s r n k b).1.Shows (remember m (store s r n k b).2) := by
  obtain ⟨hcount, own, h, rfl⟩ := h
  unfold store
  cases hleaf : leafOf s.vm r (pageVa n) with
  | none => exact ⟨hcount, own, h, rfl⟩
  | some e =>
      dsimp only
      split
      · rename_i hw
        have hentry : s.entries r n = some e := (entries_of_live hr hn).trans hleaf
        refine ⟨hcount, own, { h with }, ?_⟩
        refine (behind_write hentry (h.exclusive hentry hw)
          (Function.update (s.data e.frame) k b)).trans ?_
        rw [remember, behind, hentry]
        rfl
      · exact ⟨hcount, own, h, rfl⟩

/-! ## Processes -/

theorem create_shows (h : s.Shows m) : (create s).1.Shows (remember m (create s).2) := by
  obtain ⟨hcount, own, h, rfl⟩ := h
  unfold create
  split
  · rename_i hroom
    rcases createPageDir_created h.inv with ⟨hz, hu⟩ | ⟨own', hc⟩
    · obtain ⟨hok, hentries⟩ := h.unchanged hu
      simp only [hz, if_true]
      exact ⟨hcount, own, hok, by rw [hentries]; rfl⟩
    · obtain ⟨hok, hentries⟩ := h.born hc
      simp only [hc.inv.root_pos hc.root, if_false]
      exact ⟨hroom, own', hok, by rw [hentries]; rfl⟩
  · exact ⟨hcount, own, h, rfl⟩

theorem exit_shows (h : s.Shows m) (hr : r ∈ s.procs) :
    (exit s r).1.Shows (remember m (exit s r).2) := by
  obtain ⟨hcount, own, h, rfl⟩ := h
  obtain ⟨own', hok, -, hentries⟩ := h.drop hr
  refine ⟨(List.length_filter_le _ _).trans hcount, own', hok, ?_⟩
  unfold exit
  rw [hentries]
  exact behind_drop r

theorem fork_shows (h : s.Shows m) (hr : r ∈ s.procs)
    (hframes : 3 + (neededTables s.vm r).card ≤ (freeFrames s.vm).card) :
    (fork s r).1.Shows (remember m (fork s r).2) := by
  obtain ⟨hcount, own, h, rfl⟩ := h
  unfold fork
  rcases createPageDir_created h.inv with ⟨hz, hu⟩ | ⟨own₁, hc⟩
  · obtain ⟨hok, hentries⟩ := h.unchanged hu
    simp only [hz, if_true]
    exact ⟨hcount, own, hok, by rw [hentries]; rfl⟩
  simp only [hc.inv.root_pos hc.root, if_false]
  have hdead := h.not_live hc.fresh
  obtain ⟨own₂, hok₂, hent₂, -⟩ := h.forked hr hcount hframes hc
  generalize (createPageDir s.vm).1 = v at *
  generalize (createPageDir s.vm).2 = child at *
  split
  · rename_i hroom
    refine ⟨hroom, own₂, hok₂, ?_⟩
    rw [hent₂]
    exact behind_share fun _ => rfl
  · -- Without a slot the child goes at once, and the parent keeps its pages.
    obtain ⟨own₃, hok₃, -, hent₃⟩ := hok₂.drop List.mem_cons_self
    have hprocs := Family.filter_cons_self hdead
    rw [hent₂] at hent₃
    simp only [hprocs] at hok₃ hent₃
    refine ⟨hcount, own₃, hok₃, ?_⟩
    rw [hent₃]
    have hshare : behind PTE.frame (share PTE.sharing s.entries r child) s.data = _ :=
      behind_share fun _ => rfl
    refine (behind_drop child).trans ?_
    dsimp only [remember]
    rw [hshare, Function.update_idem]
    apply Function.update_eq_self_iff.mpr
    funext n
    rw [behind, entries_of_dead hdead]
    rfl

end Family

/-! ## Every run -/

/-- A fork finds the frames for an address space and for the page tables of the
child. -/
def ForkGuard (s : Watched) : Family.Op → Prop
  | .fork r => r ∈ s.family.procs →
      3 + (neededTables s.family.vm r).card ≤ (freeFrames s.family.vm).card
  | _ => True

theorem Watched.step_family (s : Watched) (op : Family.Op) :
    (s.step op).family = (s.family.step op).1 := rfl

theorem Watched.Start.shows (h : s.Start) : s.family.Shows s.memories := by
  have hprocs := h.family.procs
  refine ⟨by simp [hprocs], _, h.family.ok, ?_⟩
  rw [h.memories]
  funext r n
  rw [behind, Family.entries_of_dead (by simp [hprocs])]
  rfl

/-- One step keeps family and memories together. -/
theorem step_shows (h : s.family.Shows s.memories) {op : Family.Op} (hg : ForkGuard s op) :
    (s.step op).family.Shows (s.step op).memories := by
  unfold Watched.step Family.step
  cases hv : op.valid s.family with
  | false => exact h
  | true =>
      cases op with
      | create => exact Family.create_shows h
      | fork r => exact Family.fork_shows h (of_decide_eq_true hv) (hg (of_decide_eq_true hv))
      | exit r => exact Family.exit_shows h (of_decide_eq_true hv)
      | map r n p =>
          have hrn : r ∈ s.family.procs ∧ n < userPages := of_decide_eq_true hv
          exact Family.map_shows h hrn.1 hrn.2 p
      | writeFault r n =>
          have hrn : r ∈ s.family.procs ∧ n < userPages := of_decide_eq_true hv
          exact Family.writeFault_shows h hrn.1 hrn.2
      | store r n k b =>
          have hrn : r ∈ s.family.procs ∧ n < userPages := of_decide_eq_true hv
          exact Family.store_shows h hrn.1 hrn.2 k b

theorem Family.Shows.read {s : Family} {m : Memories Nat Nat Page} (h : s.Shows m)
    (hr : r ∈ s.procs) (hn : n < userPages) : s.read r n = m r n := by
  obtain ⟨-, own, -, rfl⟩ := h
  rw [behind, Family.entries_of_live hr hn]
  rfl

namespace Family

theorem writeFault_silent (s : Family) (r n : Nat) :
    (writeFault s r n).1.procs = s.procs ∧ (writeFault s r n).2 = .silent := by
  unfold writeFault
  split
  · exact ⟨rfl, rfl⟩
  · split
    · exact ⟨rfl, rfl⟩
    · exact ⟨rfl, rfl⟩

theorem step_writeFault_procs (s : Family) (r n : Nat) :
    (s.step (.writeFault r n)).1.procs = s.procs := by
  unfold step
  cases Op.valid s (.writeFault r n) with
  | false => rfl
  | true => exact (writeFault_silent s r n).1

theorem store_stored (s : Family) (r n : Nat) (k : Fin 4096) (b : UInt8) :
    (store s r n k b).1.procs = s.procs ∧
      ((store s r n k b).2 = .silent ∨ (store s r n k b).2 = .stored r n k b) := by
  unfold store
  split
  · exact ⟨rfl, Or.inl rfl⟩
  · split
    · exact ⟨rfl, Or.inr rfl⟩
    · exact ⟨rfl, Or.inl rfl⟩

/-- A store to a page that is writable, or whose write fault is handled, takes
effect when the processor repeats it. -/
theorem store_after_fault {s : Family} {m : Memories Nat Nat Page} (h : s.Shows m)
    (hr : r ∈ s.procs) {e : PTE} (hleaf : leafOf s.vm r (pageVa n) = some e)
    (hok : e.writable = true ∨ (cowFault s.vm r (pageVa n)).2 = true) (k : Fin 4096) (b : UInt8) :
    (store (writeFault s r n).1 r n k b).2 = .stored r n k b := by
  obtain ⟨-, own, h, -⟩ := h
  cases hw : e.writable with
  | true =>
      have hsame : writeFault s r n = (s, .silent) := by simp [writeFault, hleaf, hw]
      rw [hsame]
      simp [store, hleaf, hw]
  | false =>
      obtain ⟨f, hf⟩ := cowFault_handled h.inv (h.root hr) (hok.resolve_left (by simp [hw]))
      have hnew : leafOf (writeFault s r n).1.vm r (pageVa n) = some (PTE.userRW f) := by
        simpa [writeFault, hleaf, hw] using hf
      simp [store, hnew, PTE.userRW]

end Family

/-- A fault or a store of the process `r`. -/
inductive Writes (r : Nat) : Family.Op → Prop
  | fault (n : Nat) : Writes r (.writeFault r n)
  | store (n : Nat) (k : Fin 4096) (b : UInt8) : Writes r (.store r n k b)

/-- Faults and stores of one process leave the memories of the others alone. -/
theorem step_other (h : s.family.Shows s.memories) {op : Family.Op} (hop : Writes r op)
    {r' n' : Nat} (hr' : r' ∈ s.family.procs) (hn' : n' < userPages) (hne : r' ≠ r) :
    (s.family.step op).1.read r' n' = s.family.read r' n' := by
  have hguard : ForkGuard s op := by
    cases hop with
    | fault n => trivial
    | store n k b => trivial
  have hkeep : (s.family.step op).1.procs = s.family.procs ∧
      remember s.memories (s.family.step op).2 r' n' = s.memories r' n' := by
    unfold Family.step
    cases hv : op.valid s.family with
    | false => exact ⟨rfl, rfl⟩
    | true =>
        cases hop with
        | fault n =>
            obtain ⟨hprocs, hev⟩ := Family.writeFault_silent s.family r n
            refine ⟨hprocs, ?_⟩
            simp only [if_true, Family.perform, hev, remember]
        | store n k b =>
            obtain ⟨hprocs, hev⟩ := Family.store_stored s.family r n k b
            refine ⟨hprocs, ?_⟩
            rcases hev with hev | hev
            · simp only [if_true, Family.perform, hev, remember]
            · simp only [if_true, Family.perform, hev, remember]
              exact Memories.set_of_ne _ _ fun hc => hne hc.1
  have hstep := step_shows h hguard
  calc
    (s.family.step op).1.read r' n' = remember s.memories (s.family.step op).2 r' n' :=
      hstep.read (hkeep.1 ▸ hr') hn'
    _ = s.memories r' n' := hkeep.2
    _ = s.family.read r' n' := (h.read hr' hn').symm

/-- In every run whose forks find frames for the page tables of the child, each
process reads its own memory at every page of user space, and neither a fault nor
a store of one process changes what another reads. -/
theorem processes_isolated {s : Watched} (h : Reach Watched.Start ForkGuard Watched.step s) :
    (∀ r ∈ s.family.procs, ∀ n < userPages, s.family.read r n = s.memories r n) ∧
      ∀ r op, Writes r op → ∀ r' ∈ s.family.procs, r' ≠ r → ∀ n < userPages,
        (s.family.step op).1.read r' n = s.family.read r' n := by
  have hshows : s.family.Shows s.memories :=
    h.invariant (fun _ hs => hs.shows) fun _ _ hs hg => step_shows hs hg
  constructor
  · exact fun r hr n hn => hshows.read hr hn
  · exact fun r op hop r' hr' hne n hn => step_other hshows hop hr' hn hne

/-- No program has been started. -/
def bootWatched : Watched := ⟨⟨boot.vm, fun _ _ => 0, []⟩, fun _ _ => none⟩

theorem bootWatched_start : bootWatched.Start :=
  ⟨⟨boot_start.booted, rfl⟩, rfl⟩

/-- A program has been started and has got a page. -/
def onePage : Watched := (bootWatched.step .create).step (.map 2048 0xC00 fun _ => 1)

theorem onePage_shows : onePage.family.Shows onePage.memories := by
  have hcreate : ForkGuard bootWatched .create := trivial
  have hmap : ForkGuard (bootWatched.step .create) (.map 2048 0xC00 fun _ => 1) := trivial
  exact step_shows (step_shows bootWatched_start.shows hcreate) hmap

theorem neededTables_card_le (v : Vm) (r : Nat) : (neededTables v r).card ≤ 512 :=
  (Finset.card_filter_le _ _).trans (Finset.card_range 512).le

theorem onePage_frames :
    3 + (neededTables onePage.family.vm 2048).card ≤ (freeFrames onePage.family.vm).card := by
  have hfree : ∀ f ∈ List.range' 3000 520, onePage.family.vm.used f = false := by
    decide +kernel
  have hsub : Finset.Ico 3000 3520 ⊆ freeFrames onePage.family.vm := by
    intro f hf
    rw [Finset.mem_Ico] at hf
    refine mem_freeFrames.mpr ⟨?_, hfree f ?_⟩
    · simp only [reservedFrames, totalFrames]
      omega
    · rw [List.mem_range'_1]
      omega
  have hcard := Finset.card_le_card hsub
  have hneed := neededTables_card_le onePage.family.vm 2048
  rw [Nat.card_Ico] at hcard
  omega

/-! ## A store behind a handled fault -/

theorem foldl_stays {σ α : Type*} {f : σ → α → σ} {x : σ} {l : List α}
    (h : ∀ i ∈ l, f x i = x) : l.foldl f x = x := by
  induction l with
  | nil => rfl
  | cons i l ih =>
      rw [List.foldl_cons, h i List.mem_cons_self]
      exact ih fun j hj => h j (List.mem_cons_of_mem i hj)

/-- A loop of which one turn does something. -/
theorem foldl_range_single {σ : Type*} {f : σ → Nat → σ} {x : σ} {k m : Nat}
    (hbefore : ∀ i ∈ List.range k, f x i = x)
    (hafter : ∀ i ∈ List.range' (k + 1) m, f (f x k) i = f x k) :
    (List.range (k + 1 + m)).foldl f x = f x k := by
  rw [List.range_eq_range', ← List.range'_append_1, List.foldl_append, ← List.range_eq_range',
    List.range_succ, List.foldl_append, foldl_stays hbefore, Nat.zero_add]
  exact foldl_stays hafter

section Single
variable {parent child b pd pt i j : Nat}

/-- A page table with one page. -/
theorem shareTable_single (hpd : v.mem pd i = PTE.userRW pt) (hj : j < 512)
    (hbefore : ∀ k ∈ List.range j, (v.mem pt k).present = false)
    (hafter : ∀ k ∈ List.range' (j + 1) (511 - j),
      ((sharePage v child pt i j).mem pt k).present = false) :
    shareTable v child pd i = sharePage v child pt i j := by
  have hskip {w : Vm} {k : Nat} (hk : (w.mem pt k).present = false) :
      sharePage w child pt i k = w := by
    rw [sharePage, hk]
    rfl
  have hlen : 512 = j + 1 + (511 - j) := by omega
  rw [shareTable, hpd, hlen]
  exact foldl_range_single (fun k hk => hskip (hbefore k hk)) fun k hk => hskip (hafter k hk)

/-- An address space with one page. -/
theorem copyCow_single (hparent : parent ≠ 0) (hchild : child ≠ 0)
    (htop : v.mem parent 0 = PTE.userRW b) (hmid : v.mem b 0 = PTE.userRW pd) (hi : i < 512)
    (hbefore : ∀ k ∈ List.range i, (!(v.mem pd k).present || (v.mem pd k).large) = true)
    (hone : shareTable v child pd i = w)
    (hafter : ∀ k ∈ List.range' (i + 1) (511 - i),
      (!(w.mem pd k).present || (w.mem pd k).large) = true) :
    copyCow v parent child = w := by
  have hskip {u : Vm} {k : Nat} (hk : (!(u.mem pd k).present || (u.mem pd k).large) = true) :
      shareTable u child pd k = u := by
    rw [shareTable, if_pos hk]
  have hlen : 512 = i + 1 + (511 - i) := by omega
  rw [copyCow, if_neg (not_or.mpr ⟨hparent, hchild⟩), htop]
  simp only [PTE.userRW, hmid, Bool.not_true, Bool.false_eq_true, if_false]
  rw [hlen, foldl_range_single fun k hk => hskip (hbefore k hk)]
  · exact hone
  · rw [hone]
    exact fun k hk => hskip (hafter k hk)

end Single

/-- The program has forked. -/
def onePageTwice : Watched := onePage.step (.fork 2048)

/-- The child has taken a write fault on the page it shares. -/
def childCopied : Watched := onePageTwice.step (.writeFault 2053 0xC00)

/-- The page tables behind the fork. -/
def twiceVm : Vm := sharePage (createPageDir onePage.family.vm).1 2053 2052 6 0

theorem onePageTwice_vm : onePageTwice.family.vm = twiceVm := by
  have hfacts : 2048 ∈ onePage.family.procs ∧ (createPageDir onePage.family.vm).2 = 2053 ∧
      onePage.family.procs.length < maxTasks ∧
      (createPageDir onePage.family.vm).1.mem 2048 0 = PTE.userRW 2049 ∧
      (createPageDir onePage.family.vm).1.mem 2049 0 = PTE.userRW 2050 ∧
      (createPageDir onePage.family.vm).1.mem 2050 6 = PTE.userRW 2052 := by
    decide +kernel
  obtain ⟨hlive, hdir, hroom, htop, hmid, hpd⟩ := hfacts
  have hone : shareTable (createPageDir onePage.family.vm).1 2053 2050 6 = twiceVm := by
    apply shareTable_single hpd (by decide)
    · simp
    · decide +kernel
  have hcopy : copyCow (createPageDir onePage.family.vm).1 2048 2053 = twiceVm := by
    apply copyCow_single (by decide) (by decide) htop hmid (by decide : 6 < 512) ?_ hone
    · decide +kernel
    · decide +kernel
  simp only [onePageTwice, Watched.step, Family.step, Family.Op.valid, Family.perform, hlive,
    decide_true, if_true, Family.fork, hdir, hcopy, hroom]
  rfl

theorem onePageTwice_shows : onePageTwice.family.Shows onePageTwice.memories :=
  step_shows onePage_shows fun _ => onePage_frames

theorem onePageTwice_procs : onePageTwice.family.procs = [2053, 2048] := by
  decide +kernel

theorem childCopied_procs : childCopied.family.procs = [2053, 2048] := by
  rw [childCopied, Watched.step_family, Family.step_writeFault_procs, onePageTwice_procs]

theorem childCopied_reach : Reach Watched.Start ForkGuard Watched.step childCopied := by
  have honePage : Reach Watched.Start ForkGuard Watched.step onePage :=
    Reach.next _ (Reach.next _ (Reach.start bootWatched_start) trivial) trivial
  have hforked : Reach Watched.Start ForkGuard Watched.step onePageTwice :=
    Reach.next _ honePage fun _ => onePage_frames
  exact Reach.next _ hforked trivial

/-- The fault of the child is handled, and its store takes effect. -/
theorem childCopied_stores (k : Fin 4096) (b : UInt8) :
    (childCopied.family.step (.store 2053 0xC00 k b)).2 = .stored 2053 0xC00 k b := by
  have hsome : (leafOf onePageTwice.family.vm 2053 (pageVa 0xC00)).isSome = true := by
    rw [onePageTwice_vm]
    decide +kernel
  have hfault : (cowFault onePageTwice.family.vm 2053 (pageVa 0xC00)).2 = true := by
    rw [onePageTwice_vm]
    decide +kernel
  obtain ⟨e, he⟩ := Option.isSome_iff_exists.mp hsome
  have hlive : 2053 ∈ onePageTwice.family.procs ∧ 0xC00 < userPages := by
    rw [onePageTwice_procs]
    decide
  have hlive' : 2053 ∈ childCopied.family.procs ∧ 0xC00 < userPages := by
    rw [childCopied_procs]
    decide
  have hcopied : childCopied.family = (onePageTwice.family.writeFault 2053 0xC00).1 := by
    rw [childCopied, Watched.step_family, Family.step, Family.Op.valid, decide_eq_true hlive,
      if_pos rfl, Family.perform]
  have hstore := Family.store_after_fault onePageTwice_shows hlive.1 he (Or.inr hfault) k b
  rw [Family.step, Family.Op.valid, decide_eq_true hlive', if_pos rfl, Family.perform, hcopied]
  exact hstore

/-- After a fork both processes have a memory; once the write fault is handled a
store of the child takes effect, and the parent sees nothing of it. -/
theorem processes_isolated_after_fork :
    childCopied.family.procs = [2053, 2048] ∧
      (∀ n < userPages, childCopied.family.read 2048 n = childCopied.memories 2048 n) ∧
      ∀ k b, (childCopied.family.step (.store 2053 0xC00 k b)).2 = .stored 2053 0xC00 k b ∧
        ∀ n < userPages, (childCopied.family.step (.store 2053 0xC00 k b)).1.read 2048 n =
          childCopied.family.read 2048 n := by
  have hparent : 2048 ∈ childCopied.family.procs := by
    rw [childCopied_procs]
    decide
  obtain ⟨hread, hother⟩ := processes_isolated childCopied_reach
  refine ⟨childCopied_procs, hread 2048 hparent, fun k b => ⟨childCopied_stores k b, ?_⟩⟩
  exact hother 2053 _ (.store 0xC00 k b) 2048 hparent (by decide)

end OriaOS.Vmm
