import OriaOS.Vmm.Isolation

/-!
# Frames of processes that are gone

A fork adds two to the counter of every page it shares, one for the parent and
one for the child. A teardown that finds a counter above zero takes one off and
leaves the frame to the others, also when there are none left. So a page that was
shared once is never released. Without a shared page every teardown gives back
all it has, and after the last process the bitmap is as it was.
-/

namespace OriaOS.Vmm

open OriaOS.Lib

variable {s : Family} {f j n r : Nat} {u : Vm}
variable {v w : Vm} {own : Owners}

/-! ## A teardown without shared pages -/

/-- Frames have been released, and nothing else has happened. -/
structure Released (v w : Vm) : Prop where
  mem : w.mem = v.mem
  cow : w.cow = v.cow
  used : ∀ {f}, w.used f = true → v.used f = true

theorem Released.refl (v : Vm) : Released v v := ⟨rfl, rfl, id⟩

theorem Released.trans (h : Released v w) (h' : Released w u) : Released v u :=
  ⟨h'.mem.trans h.mem, h'.cow.trans h.cow, fun hf => h.used (h'.used hf)⟩

/-- What has been released stays released. -/
theorem Released.free (h : Released v w) (hf : v.used f = false) : w.used f = false := by
  by_contra hc
  have := h.used (Bool.eq_true_of_not_eq_false hc)
  rw [hf] at this
  cases this

theorem freeFrame_released (v : Vm) (f : Nat) : Released v (freeFrame v f) := by
  refine ⟨freeFrame_mem v f, freeFrame_cow v f, ?_⟩
  intro g hg
  by_cases hgf : g = f
  · subst hgf
    unfold freeFrame at hg
    split at hg
    · simp at hg
    · exact hg
  · rwa [freeFrame_used hgf] at hg

theorem freeFrame_free (hlow : reservedFrames ≤ f) (hhigh : f < totalFrames) :
    (freeFrame v f).used f = false := by
  simp [freeFrame, hlow, hhigh]

/-- A loop that releases, at every item the frames of that item among others. -/
theorem foldl_released {α : Type*} {body : Vm → α → Vm} (gone : α → Nat → Prop) (items : List α)
    (hbody : ∀ {u a}, Released v u →
      Released u (body u a) ∧ ∀ f, gone a f → (body u a).used f = false)
    (hu : Released v u) :
    Released u (items.foldl body u) ∧
      ∀ a ∈ items, ∀ f, gone a f → (items.foldl body u).used f = false := by
  induction items generalizing u with
  | nil => exact ⟨Released.refl u, fun a ha => by cases ha⟩
  | cons a items ih =>
      obtain ⟨hrel, hgone⟩ := hbody (a := a) hu
      obtain ⟨hall, hrest⟩ := ih (hu.trans hrel)
      refine ⟨hrel.trans hall, ?_⟩
      intro b hb f hf
      rcases List.mem_cons.mp hb with rfl | hb
      · exact hall.free (hgone f hf)
      · exact hrest b hb f hf

/-- The frame of a present entry. -/
def EntryFrame (v : Vm) (p j f : Nat) : Prop :=
  ((v.mem p j).present = true ∧ (v.mem p j).frame = f) ∧ reservedFrames ≤ f ∧ f < totalFrames

/-- A page whose counter is zero is released. -/
theorem releaseEntry_released (hcow : ∀ f, v.cow f = 0) (hw : Released v w) (pt j : Nat) :
    Released w (releaseEntry w pt j) ∧
      ∀ f, EntryFrame v pt j f → (releaseEntry w pt j).used f = false := by
  have hpage (f : Nat) : releasePage w f = if f < reservedFrames then w else freeFrame w f := by
    unfold releasePage
    rw [hw.cow, hcow f, if_neg (c := f < totalFrames ∧ 0 < 0) (by simp)]
  unfold releaseEntry
  rw [hw.mem]
  constructor
  · split
    · rw [hpage]
      split
      · exact Released.refl w
      · exact freeFrame_released w _
    · exact Released.refl w
  · rintro f ⟨⟨hpres, rfl⟩, hlow, hhigh⟩
    rw [if_pos hpres, hpage, if_neg (Nat.not_lt.mpr hlow)]
    exact freeFrame_free hlow hhigh

/-- The frames below an entry of the page directory: a page table and its
pages. -/
def RowFrame (v : Vm) (pd i f : Nat) : Prop :=
  (v.mem pd i).large = false ∧ (EntryFrame v pd i f ∨
    (v.mem pd i).present = true ∧ ∃ j < 512, EntryFrame v (v.mem pd i).frame j f)

theorem releaseTable_released (hcow : ∀ f, v.cow f = 0) (hw : Released v w) (pd i : Nat) :
    Released w (releaseTable w pd i) ∧
      ∀ f, RowFrame v pd i f → (releaseTable w pd i).used f = false := by
  unfold releaseTable
  rw [hw.mem]
  dsimp only
  split
  · rename_i hskip
    refine ⟨Released.refl w, ?_⟩
    rintro f ⟨hlarge, ⟨⟨hpres, -⟩, -⟩ | ⟨hpres, -⟩⟩
    · simp [hlarge, hpres] at hskip
    · simp [hlarge, hpres] at hskip
  · obtain ⟨hrel, hgone⟩ := foldl_released (EntryFrame v (v.mem pd i).frame)
      (List.range 512) (fun hu => releaseEntry_released hcow hu _ _) hw
    have hfree := freeFrame_released
      ((List.range 512).foldl (fun u j => releaseEntry u (v.mem pd i).frame j) w) (v.mem pd i).frame
    refine ⟨hrel.trans hfree, ?_⟩
    rintro f ⟨-, ⟨⟨-, rfl⟩, hlow, hhigh⟩ | ⟨-, j, hj, hf⟩⟩
    · exact freeFrame_free hlow hhigh
    · exact hfree.free (hgone j (List.mem_range.mpr hj) f hf)

/-- The place of a table of user space. -/
def UserPath (path : List Nat) : Prop := path ∈ [[], [0], [0, 0]] ∨ ∃ i, path = [0, 0, i]

/-- The teardown of a live address space. -/
theorem freeUserMemory_eq (h : Inv v own) (hr : IsRoot own r) :
    freeUserMemory v r = freeFrame (freeFrame (freeFrame ((List.range 512).foldl
      (fun u i => releaseTable u (v.mem (v.mem r 0).frame 0).frame i) v)
      (v.mem (v.mem r 0).frame 0).frame) (v.mem r 0).frame) r := by
  unfold freeUserMemory
  rw [if_neg (h.root_pos hr)]
  simp only [h.spine (Or.inl hr), h.spine (Or.inr (h.first_tables hr).1), if_true]

/-- Without shared pages a teardown releases the tables and the pages of the
address space. -/
theorem freeUserMemory_released (h : Inv v own) (hcow : ∀ f, v.cow f = 0) (hr : IsRoot own r) :
    Released v (freeUserMemory v r) ∧
      (∀ {f path}, own f = some (.table r path) → UserPath path →
        (freeUserMemory v r).used f = false) ∧
      ∀ {n e}, n < userPages → leafOf v r (pageVa n) = some e → reservedFrames ≤ e.frame →
        (freeUserMemory v r).used e.frame = false := by
  obtain ⟨hpdpt, hpd⟩ := h.first_tables hr
  rw [freeUserMemory_eq h hr]
  generalize (v.mem r 0).frame = pdpt at *
  generalize (v.mem pdpt 0).frame = pd at *
  obtain ⟨hrel, hgone⟩ := foldl_released (RowFrame v pd) (List.range 512)
    (fun hu => releaseTable_released hcow hu _ _) (Released.refl v)
  generalize (List.range 512).foldl (fun u i => releaseTable u pd i) v = u at *
  have h₁ := freeFrame_released u pd
  have h₂ := freeFrame_released (freeFrame u pd) pdpt
  have h₃ := freeFrame_released (freeFrame (freeFrame u pd) pdpt) r
  have hlast := h₁.trans (h₂.trans h₃)
  have hfree {f : Nat} {path : List Nat} {u' : Vm} (hf : own f = some (.table r path)) :
      (freeFrame u' f).used f = false :=
    freeFrame_free (h.range hf).1 (h.range hf).2.1
  -- The entry of the page directory that leads to a page table.
  have hrow {p i : Nat} (hp : own p = some (.table r [0, 0, i])) :
      (v.mem pd i).present = true ∧ (v.mem pd i).frame = p ∧ (v.mem pd i).large = false ∧ i < 512 := by
    obtain ⟨hpres, hframe, hlarge⟩ := h.entry [0, 0] hp hpd
    exact ⟨hpres, hframe, hlarge, h.bounded hp (by simp [Owner.indices])⟩
  refine ⟨hrel.trans hlast, ?_, ?_⟩
  · rintro f path hf (hpath | ⟨i, rfl⟩)
    · simp only [List.mem_cons, List.not_mem_nil, or_false] at hpath
      rcases hpath with rfl | rfl | rfl
      · obtain rfl := h.top hf
        exact hfree hf
      · obtain rfl := h.table_unique hpdpt hf
        exact h₃.free (hfree hf)
      · obtain rfl := h.table_unique hpd hf
        exact h₃.free (h₂.free (hfree hf))
    · obtain ⟨hpres, hframe, hlarge, hi⟩ := hrow hf
      exact hlast.free (hgone i (List.mem_range.mpr hi) f
        ⟨hlarge, Or.inl ⟨⟨hpres, hframe⟩, (h.range hf).1, (h.range hf).2.1⟩⟩)
  · intro n e hn he hlow
    have hrange := h.range (h.leafOf_page hr he hlow)
    obtain ⟨p, hp, hpres, rfl⟩ := (h.leafOf_eq_some hr).mp he
    rw [pageVa_path hn] at hp
    rw [pageVa_ptIdx] at hpres hlow hrange ⊢
    obtain ⟨hpres', rfl, hlarge, hi⟩ := hrow hp
    exact hlast.free (hgone _ (List.mem_range.mpr hi) _ ⟨hlarge, Or.inr ⟨hpres', n % 512,
      Nat.mod_lt _ (by decide), ⟨hpres, rfl⟩, hlow, hrange.2.1⟩⟩)

/-! ## A fork without pages -/

theorem foldl_eq_self {α β : Type*} {body : β → α → β} {b : β} {l : List α}
    (h : ∀ a ∈ l, body b a = b) : l.foldl body b = b := by
  induction l with
  | nil => rfl
  | cons a l ih =>
      rw [List.foldl_cons, h a (by simp)]
      exact ih fun c hc => h c (List.mem_cons_of_mem _ hc)

/-- A process without pages has nothing to share. -/
theorem copyCow_nothing (h : Inv v own) {parent child : Nat} (hparent : IsRoot own parent)
    (hnone : ∀ n < userPages, leafOf v parent (pageVa n) = none) :
    copyCow v parent child = v := by
  obtain ⟨hpdpt, hpd⟩ := h.first_tables hparent
  unfold copyCow
  split
  · rfl
  simp only [h.spine (Or.inl hparent), h.spine (Or.inr hpdpt), Bool.not_true, Bool.false_eq_true,
    if_false]
  apply foldl_eq_self
  intro i hi
  rw [List.mem_range] at hi
  unfold shareTable
  dsimp only
  split
  · rfl
  rename_i hskip
  simp only [Bool.or_eq_true, Bool.not_eq_true', not_or, Bool.not_eq_false,
    Bool.not_eq_true] at hskip
  apply foldl_eq_self
  intro j hj
  rw [List.mem_range] at hj
  have hn : i * 512 + j < userPages := by
    simp only [userPages]
    omega
  have hp : own (v.mem (v.mem (v.mem parent 0).frame 0).frame i).frame =
      some (.table parent (vaPath (pageVa (i * 512 + j)))) := by
    rw [pageVa_path hn, show (i * 512 + j) / 512 = i by omega]
    rcases h.child hpd (by simp) hskip.1 hskip.2 with hp | ⟨-, hbad, -⟩
    · exact hp
    · cases hbad
  have hleaf := hnone _ hn
  rw [h.leafOf_of_own hp, pageVa_ptIdx, show (i * 512 + j) % 512 = j by omega] at hleaf
  unfold sharePage
  dsimp only
  rw [if_pos]
  simp only [Bool.or_eq_true, Bool.not_eq_true']
  left
  by_contra hpres
  rw [if_pos (Bool.eq_true_of_not_eq_false hpres)] at hleaf
  cases hleaf

/-! ## The books of a family without shared pages -/

namespace Family

variable {s : Family}

/-- No counter has been touched, and every frame in use is a table of a live
process or a page of one. -/
structure Books (s : Family) (own : Owners) : Prop where
  ok : s.Ok own
  cow : ∀ f, s.vm.cow f = 0
  paths : ∀ {f r path}, own f = some (.table r path) → UserPath path
  accounted : ∀ {f}, reservedFrames ≤ f → s.vm.used f = true →
    (∃ r path, own f = some (.table r path)) ∨ ∃ r n e, s.entries r n = some e ∧ e.frame = f

/-- A new page can be mapped: its page table is there, or it is no page of the
kernel and there is a frame for the table besides its own; or there is no frame
at all. -/
def Mappable (v : Vm) (r n : Nat) : Prop :=
  (ptOf v r (pageVa n)).isSome = true ∨ (n / 512 ∉ kernelPages ∧ 2 ≤ (freeFrames v).card) ∨
    freeFrames v = ∅

/-- Where a page can be mapped, the mapping does not stop. -/
theorem Mappable.not_stopped (h : s.Ok own) {pd : Nat} (hr : r ∈ s.procs) (hn : n < userPages)
    (hm : Mappable s.vm r n) (hpd : own pd = some (.table r [0, 0])) (hf : f ∈ freeFrames s.vm)
    (hstop : (s.vm.mem pd (pdIdx (pageVa n))).large = true ∨
      (s.vm.mem pd (pdIdx (pageVa n))).present = false ∧ (freeFrames s.vm).erase f = ∅) :
    False := by
  rw [pageVa_pdIdx hn] at hstop
  rcases hm with hpt | ⟨hplain, hcard⟩ | hempty
  · obtain ⟨pt, hpt⟩ := Option.isSome_iff_exists.mp hpt
    have hown := h.inv.ptOf_spec (h.root hr) hpt
    rw [pageVa_path hn] at hown
    obtain ⟨hpres, -, hlarge⟩ := h.inv.entry [0, 0] hown hpd
    rcases hstop with hc | ⟨hc, -⟩
    · rw [hlarge] at hc
      cases hc
    · rw [hpres] at hc
      cases hc
  · rcases hstop with hc | ⟨-, hc⟩
    · exact hplain ((h.kernel hpd).mp hc)
    · have := Finset.card_erase_add_one hf
      rw [hc, Finset.card_empty] at this
      omega
  · rw [hempty] at hf
    cases hf

theorem map_books (h : s.Books own) (hr : r ∈ s.procs) (hn : n < userPages) (p : Page)
    (hm : Mappable s.vm r n) : ∃ own', Books (map s r n p).1 own' := by
  unfold map
  split
  · exact ⟨own, h⟩
  rename_i hnone
  rw [Option.not_isSome_iff_eq_none] at hnone
  rcases allocFrame_eq s.vm with ⟨heq, -⟩ | ⟨f, hf, heq⟩
  · rw [heq]
    exact ⟨own, h⟩
  rw [heq]
  dsimp only
  rw [if_neg (free_ne_zero hf), ← takeZeroed]
  obtain ⟨pd, hpd⟩ := h.ok.pd hr
  rcases mapNew_spec h.ok.inv (h.ok.root hr) hpd (pageVa_user hn) hf with ⟨-, hstop⟩ | ⟨own', hmap⟩
  · exact (hm.not_stopped h.ok hr hn hpd hf hstop).elim
  have hentries := entries_set h.ok.root (Function.update s.data f p) hr hn hmap.sets
  refine ⟨own', h.ok.set hr hn hmap.inv hmap.grow (hmap.kernel h.ok.kernel) hmap.sets
    (mem_freeFrames.mp hf).1.1 (h.ok.unnamed hf).alone, ?_, ?_, ?_⟩
  · intro g
    rw [hmap.cow]
    exact h.cow g
  · intro g r' path hg
    rcases hmap.above hg with ho | hi
    · exact h.paths ho
    · exact Or.inr hi
  · intro g hlow hused
    rw [hentries]
    rcases hmap.taken hused with hold | rfl | htab
    · rcases h.accounted hlow hold with ⟨r', path, ho⟩ | ⟨r', n', e', he', hframe⟩
      · exact Or.inl ⟨r', path, hmap.grow.tables ho⟩
      · have hne : ¬ (r' = r ∧ n' = n) := by
          rintro ⟨rfl, rfl⟩
          rw [entries_of_live hr hn, hnone] at he'
          cases he'
        exact Or.inr ⟨r', n', e', by rwa [Memories.set_of_ne _ _ hne], hframe⟩
    · exact Or.inr ⟨r, n, PTE.userRW g, Memories.set_self _ _ _ _, rfl⟩
    · exact Or.inl htab

/-- The page stays in its frame, since no counter is above one. -/
theorem writeFault_books (h : s.Books own) (hr : r ∈ s.procs) (hn : n < userPages) :
    ∃ own', Books (writeFault s r n).1 own' := by
  have hroot := h.ok.root hr
  unfold writeFault
  cases hleaf : leafOf s.vm r (pageVa n) with
  | none => exact ⟨own, h⟩
  | some e =>
      dsimp only
      split
      · exact ⟨own, h⟩
      have hentry : s.entries r n = some e := (entries_of_live hr hn).trans hleaf
      rcases cowFault_spec h.ok.inv hroot (pageVa n) with
        hsame | ⟨e', he', own', hinv, hgrow, hkernel, ⟨f, -, hshared, -⟩ |
          ⟨hcow, rfl, hused, hcows, hsets⟩⟩
      · rw [congrArg Prod.fst hsame]
        exact ⟨own, { h with ok := { h.ok with } }⟩
      · rw [h.cow] at hshared
        exact absurd hshared (by decide)
      rw [hleaf] at he'
      cases he'
      generalize Function.update s.data (getPhys (cowFault s.vm r (pageVa n)).1 r (pageVa n))
        (s.data e.frame) = data
      have hentries := entries_set h.ok.root data hr hn hsets
      have hlow := h.ok.low hentry
      have halone := h.ok.alone hentry hcow
      refine ⟨own', h.ok.set hr hn hinv hgrow (hkernel h.ok.kernel) hsets hlow halone, ?_, h.paths,
        ?_⟩
      · intro g
        rw [hcows]
        exact h.cow g
      · intro g hlow hg
        rw [hused] at hg
        rw [hentries]
        refine (h.accounted hlow hg).imp_right ?_
        rintro ⟨r', n', e', he', hframe⟩
        by_cases hat : r' = r ∧ n' = n
        · rw [hat.1, hat.2, hentry] at he'
          cases he'
          exact ⟨r, n, PTE.userRW e.frame, Memories.set_self _ _ _ _, hframe⟩
        · exact ⟨r', n', e', by rwa [Memories.set_of_ne _ _ hat], hframe⟩

theorem store_books (h : s.Books own) (r n : Nat) (k : Fin 4096) (b : UInt8) :
    Books (store s r n k b).1 own := by
  unfold store
  split
  · exact h
  · split
    · exact { h with ok := { h.ok with } }
    · exact h

/-- A new address space is accounted for at once. -/
theorem Books.born (h : s.Books own) {v : Vm} {own' : Owners} {dir : Nat}
    (hc : Created s.vm own v own' dir) : Books { s with vm := v, procs := dir :: s.procs } own' := by
  obtain ⟨hok, hentries⟩ := h.ok.born hc
  refine ⟨hok, ?_, ?_, ?_⟩
  · intro f
    rw [hc.cow]
    exact h.cow f
  · intro f r path hf
    rcases hc.tables hf with ho | ⟨-, hpath⟩
    · exact h.paths ho
    · exact Or.inl hpath
  · intro f hlow hused
    rw [hentries]
    rcases hc.taken hused with hold | ⟨path, hpath⟩
    · exact (h.accounted hlow hold).imp_left fun ⟨r, path, ho⟩ => ⟨r, path, (hc.keep ho).1⟩
    · exact Or.inl ⟨dir, path, hpath⟩

theorem Books.unchanged (h : s.Books own) {v : Vm} (hu : Unchanged s.vm v) :
    Books { s with vm := v } own := by
  obtain ⟨hok, hentries⟩ := h.ok.unchanged hu
  refine ⟨hok, ?_, h.paths, ?_⟩
  · intro f
    rw [hu.cow]
    exact h.cow f
  · intro f hlow hused
    rw [hentries]
    rw [hu.used] at hused
    exact h.accounted hlow hused

theorem create_books (h : s.Books own) : ∃ own', Books (create s).1 own' := by
  unfold create
  split
  · rcases createPageDir_created h.ok.inv with ⟨hz, hu⟩ | ⟨own', hc⟩
    · simp only [hz, if_true]
      exact ⟨own, h.unchanged hu⟩
    · simp only [hc.inv.root_pos hc.root, if_false]
      exact ⟨own', h.born hc⟩
  · exact ⟨own, h⟩

/-- A process ends: what it had is released, the rest is accounted for by the
others. -/
theorem Books.drop (h : s.Books own) (hr : r ∈ s.procs) :
    ∃ own', Books { s with vm := freeUserMemory s.vm r, procs := s.procs.filter (· ≠ r) } own' := by
  obtain ⟨own', hok, htables, hentries⟩ := h.ok.drop hr
  obtain ⟨hrel, htabs, hpages⟩ := freeUserMemory_released h.ok.inv h.cow (h.ok.root hr)
  refine ⟨own', hok, ?_, fun hf => h.paths (htables.mp hf).1, ?_⟩
  · intro f
    rw [hrel.cow]
    exact h.cow f
  · intro f hlow hused
    rw [hentries]
    rcases h.accounted hlow (hrel.used hused) with ⟨r', path, hf⟩ | ⟨r', n, e, he, rfl⟩
    · have hne : r' ≠ r := by
        rintro rfl
        rw [htabs hf (h.paths hf)] at hused
        cases hused
      exact Or.inl ⟨r', path, htables.mpr ⟨hf, hne⟩⟩
    · have hne : r' ≠ r := by
        rintro rfl
        obtain ⟨⟨-, hn⟩, hleaf⟩ := entries_eq_some.mp he
        rw [hpages hn hleaf hlow] at hused
        cases hused
      exact Or.inr ⟨r', n, e, by rwa [Function.update_of_ne hne], rfl⟩

theorem exit_books (h : s.Books own) (hr : r ∈ s.procs) : ∃ own', Books (exit s r).1 own' :=
  h.drop hr

/-- A process without pages forks: nothing is shared. -/
theorem fork_nothing {own' : Owners} (hinv : Inv s.vm own) (hr : IsRoot own r)
    (hnone : ∀ n < userPages, leafOf s.vm r (pageVa n) = none)
    (hc : Created s.vm own (createPageDir s.vm).1 own' (createPageDir s.vm).2) :
    copyCow (createPageDir s.vm).1 r (createPageDir s.vm).2 = (createPageDir s.vm).1 := by
  apply copyCow_nothing hc.inv (hc.keep hr).1
  intro n hn
  rw [hc.leafOf_old hinv hr]
  exact hnone n hn

/-- A fork of a process without pages makes an empty process; a fork without
frames makes none. -/
theorem fork_books (h : s.Books own) (hr : r ∈ s.procs)
    (hnone : (∀ n < userPages, leafOf s.vm r (pageVa n) = none) ∨ (freeFrames s.vm).card < 3) :
    ∃ own', Books (fork s r).1 own' := by
  unfold fork
  rcases createPageDir_created h.ok.inv with ⟨hz, hu⟩ | ⟨own₁, hc⟩
  · simp only [hz, if_true]
    exact ⟨own, h.unchanged hu⟩
  have hfree := hc.free
  have hempty := hnone.resolve_right (by omega)
  simp only [hc.inv.root_pos hc.root, if_false]
  rw [fork_nothing h.ok.inv (h.ok.root hr) hempty hc]
  have hborn := h.born hc
  split
  · exact ⟨own₁, hborn⟩
  · -- Without a slot the child goes at once.
    obtain ⟨own₂, hbooks⟩ := hborn.drop List.mem_cons_self
    have hprocs := filter_cons_self (h.ok.not_live hc.fresh)
    simp only [hprocs] at hbooks
    exact ⟨own₂, hbooks⟩

end Family

/-! ## A counter above zero -/

/-- The frame `f` is left alone. -/
structure Keeps (f : Nat) (v w : Vm) : Prop where
  mem : w.mem = v.mem
  used : w.used f = v.used f
  cow : w.cow f = v.cow f

/-- The frame `f` is not released, and its counter loses one at most. -/
structure Spends (f : Nat) (v w : Vm) : Prop where
  mem : w.mem = v.mem
  used : w.used f = v.used f
  cow : v.cow f ≤ w.cow f + 1

section Spare
variable {f : Nat}

theorem Keeps.refl (v : Vm) : Keeps f v v := ⟨rfl, rfl, rfl⟩

theorem Keeps.trans (h : Keeps f v w) (h' : Keeps f w u) : Keeps f v u :=
  ⟨h'.mem.trans h.mem, h'.used.trans h.used, h'.cow.trans h.cow⟩

theorem Keeps.spends (h : Keeps f v w) : Spends f v w :=
  ⟨h.mem, h.used, by rw [h.cow]; exact Nat.le_succ _⟩

theorem Keeps.trans_spends (h : Keeps f v w) (h' : Spends f w u) : Spends f v u :=
  ⟨h'.mem.trans h.mem, h'.used.trans h.used, h.cow ▸ h'.cow⟩

theorem Spends.trans_keeps (h : Spends f v w) (h' : Keeps f w u) : Spends f v u :=
  ⟨h'.mem.trans h.mem, h'.used.trans h.used, by rw [h'.cow]; exact h.cow⟩

theorem freeFrame_keeps {g : Nat} (hne : f ≠ g) : Keeps f v (freeFrame v g) :=
  ⟨freeFrame_mem v g, freeFrame_used hne, by rw [freeFrame_cow]⟩

/-- A loop in which no step concerns the frame. -/
theorem foldl_keeps {α : Type*} {body : Vm → α → Vm} {items : List α}
    (hbody : ∀ {u a}, a ∈ items → u.mem = v.mem → Keeps f u (body u a)) (hu : u.mem = v.mem) :
    Keeps f u (items.foldl body u) := by
  induction items generalizing u with
  | nil => exact Keeps.refl u
  | cons a items ih =>
      have hfirst := hbody (a := a) (by simp) hu
      exact hfirst.trans (ih (fun ha => hbody (List.mem_cons_of_mem _ ha)) (hfirst.mem.trans hu))

/-- A loop in which one step concerns the frame. -/
theorem foldl_spends {α : Type*} {body : Vm → α → Vm} {items : List α} (hnodup : items.Nodup)
    {a₀ : α} (hmem : a₀ ∈ items)
    (hother : ∀ {u a}, a ∈ items → a ≠ a₀ → u.mem = v.mem → Keeps f u (body u a))
    (hhit : ∀ {u}, u.mem = v.mem → 0 < u.cow f → Spends f u (body u a₀)) (hu : u.mem = v.mem)
    (hpos : 0 < u.cow f) : Spends f u (items.foldl body u) := by
  obtain ⟨before, after, rfl⟩ := List.append_of_mem hmem
  have hnotin : a₀ ∉ before ∧ a₀ ∉ after := by
    rw [List.nodup_append, List.nodup_cons] at hnodup
    refine ⟨fun hc => ?_, hnodup.2.1.1⟩
    exact hnodup.2.2 a₀ hc a₀ (by simp) rfl
  rw [List.foldl_append, List.foldl_cons]
  have h₁ : Keeps f u (before.foldl body u) := by
    apply foldl_keeps _ hu
    intro u' a ha hu'
    exact hother (by simp [ha]) (fun hc => hnotin.1 (hc ▸ ha)) hu'
  have h₂ := hhit (h₁.mem.trans hu) (by rw [h₁.cow]; exact hpos)
  have h₃ : Keeps f (body (before.foldl body u) a₀)
      (after.foldl body (body (before.foldl body u) a₀)) := by
    apply foldl_keeps _ (h₂.mem.trans (h₁.mem.trans hu))
    intro u' a ha hu'
    exact hother (by simp [ha]) (fun hc => hnotin.2 (hc ▸ ha)) hu'
  exact h₁.trans_spends (h₂.trans_keeps h₃)

theorem releaseEntry_keeps {pt : Nat} (hw : w.mem = v.mem)
    (hne : (v.mem pt j).present = true → (v.mem pt j).frame ≠ f) :
    Keeps f w (releaseEntry w pt j) := by
  unfold releaseEntry releasePage
  rw [hw]
  split
  · rename_i hpres
    have hgf := (hne hpres).symm
    split
    · exact Keeps.refl w
    · split
      · exact ⟨hw.symm, rfl, by simp [hgf]⟩
      · exact freeFrame_keeps hgf
  · exact Keeps.refl w

/-- A page whose counter is above zero is not released. -/
theorem releaseEntry_spends {pt : Nat} (hhigh : f < totalFrames) (hpos : 0 < w.cow f) :
    Spends f w (releaseEntry w pt j) := by
  by_cases hf : (w.mem pt j).present = true ∧ (w.mem pt j).frame = f
  · obtain ⟨hpres, rfl⟩ := hf
    unfold releaseEntry releasePage
    rw [if_pos hpres]
    split
    · exact (Keeps.refl w).spends
    · rw [if_pos ⟨hhigh, hpos⟩]
      refine ⟨rfl, rfl, ?_⟩
      simp only [Function.update_self]
      omega
  · exact (releaseEntry_keeps rfl fun hpres hc => hf ⟨hpres, hc⟩).spends

/-- A page of `f` that is owned at an address is met at most once. -/
theorem releaseTable_spends (h : Inv v own) {pd i : Nat} (hpd : own pd = some (.table r [0, 0]))
    (hf : own f = some (.page [0, 0, i] j)) (hw : w.mem = v.mem) (k : Nat) :
    (k ≠ i → Keeps f w (releaseTable w pd k)) ∧
      (0 < w.cow f → Spends f w (releaseTable w pd k)) := by
  unfold releaseTable
  rw [hw]
  dsimp only
  split
  · exact ⟨fun _ => Keeps.refl w, fun _ => (Keeps.refl w).spends⟩
  rename_i hskip
  simp only [Bool.or_eq_true, Bool.not_eq_true', not_or, Bool.not_eq_false,
    Bool.not_eq_true] at hskip
  have hpt : own (v.mem pd k).frame = some (.table r [0, 0, k]) := by
    rcases h.child hpd (by simp) hskip.1 hskip.2 with hp | ⟨-, hbad, -⟩
    · exact hp
    · cases hbad
  have hne : f ≠ (v.mem pd k).frame := by
    rintro rfl
    rw [hf] at hpt
    cases hpt
  have hplace {j' : Nat} (hpres : (v.mem (v.mem pd k).frame j').present = true)
      (hframe : (v.mem (v.mem pd k).frame j').frame = f) : k = i ∧ j' = j := by
    rcases h.leaf hpt rfl hpres with hlow | hpage
    · rw [hframe] at hlow
      exact absurd (h.range hf).1 (Nat.not_le.mpr hlow)
    · rw [hframe, hf] at hpage
      simp only [Option.some.injEq, Owner.page.injEq, List.cons.injEq, and_true,
        true_and] at hpage
      exact ⟨hpage.1.symm, hpage.2.symm⟩
  constructor
  · intro hki
    refine Keeps.trans (foldl_keeps (v := v) ?_ hw) (freeFrame_keeps hne)
    intro u j' _ hu
    exact releaseEntry_keeps hu fun hpres hc => hki (hplace hpres hc).1
  · intro hpos
    have hj : j < 512 := h.bounded hf (by simp [Owner.indices])
    refine Spends.trans_keeps ?_ (freeFrame_keeps hne)
    refine foldl_spends (v := v) List.nodup_range (List.mem_range.mpr hj) ?_ ?_ hw hpos
    · intro u j' _ hj' hu
      exact releaseEntry_keeps hu fun hpres hc => hj' (hplace hpres hc).2
    · exact fun _ hpos' => releaseEntry_spends (h.range hf).2.1 hpos'

/-- A teardown does not release a page whose counter is above zero, whether or
not another process has the page. -/
theorem freeUserMemory_spends (h : Inv v own) {i : Nat} (hr : IsRoot own r)
    (hf : own f = some (.page [0, 0, i] j)) (hpos : 0 < v.cow f) :
    Spends f v (freeUserMemory v r) := by
  obtain ⟨hpdpt, hpd⟩ := h.first_tables hr
  have hne {p : Nat} {path : List Nat} (hp : own p = some (.table r path)) : f ≠ p := by
    rintro rfl
    rw [hf] at hp
    cases hp
  have hi : i < 512 := h.bounded hf (by simp [Owner.indices])
  rw [freeUserMemory_eq h hr]
  refine Spends.trans_keeps ?_ (((freeFrame_keeps (hne hpd)).trans
    (freeFrame_keeps (hne hpdpt))).trans (freeFrame_keeps (hne hr)))
  refine foldl_spends (v := v) List.nodup_range (List.mem_range.mpr hi) ?_ ?_ rfl hpos
  · exact fun _ hk hu => (releaseTable_spends h hpd hf hu _).1 hk
  · exact fun hu hpos' => (releaseTable_spends h hpd hf hu i).2 hpos'

end Spare

namespace Family

variable {s : Family}

/-- A page with a counter above zero outlives the exit of any process. -/
theorem Ok.exit_spares (h : s.Ok own) {e : PTE} (he : s.entries r n = some e)
    (hpos : 0 < s.vm.cow e.frame) {r' : Nat} (hr' : r' ∈ s.procs) :
    (exit s r').1.vm.used e.frame = true ∧
      s.vm.cow e.frame ≤ (exit s r').1.vm.cow e.frame + 1 := by
  obtain ⟨⟨hr, hn⟩, hleaf⟩ := entries_eq_some.mp he
  have hpage := h.inv.leafOf_page (h.root hr) hleaf (h.low he)
  rw [pageVa_path hn] at hpage
  have hspends := freeUserMemory_spends h.inv (h.root hr') hpage hpos
  exact ⟨hspends.used.trans (h.inv.range hpage).2.2, hspends.cow⟩

/-- A fork and the exits of child and parent leave every page of the parent in
use. -/
theorem Ok.fork_leaks (h : s.Ok own) {e : PTE} (hroom : s.procs.length < maxTasks)
    (hframes : 3 + (neededTables s.vm r).card ≤ (freeFrames s.vm).card)
    (he : s.entries r n = some e) :
    (exit (exit (fork s r).1 (createPageDir s.vm).2).1 r).1.vm.used e.frame = true := by
  have hr := (entries_eq_some.mp he).1.1
  rcases createPageDir_created h.inv with ⟨hz, -⟩ | ⟨own₁, hc⟩
  · exact absurd hz (createPageDir_ne_zero (Nat.le_of_add_right_le hframes))
  have hfork : (fork s r).1 = { s with
      vm := copyCow (createPageDir s.vm).1 r (createPageDir s.vm).2
      procs := (createPageDir s.vm).2 :: s.procs } := by
    unfold fork
    simp only [hc.inv.root_pos hc.root, hroom, if_true, if_false]
  have hne : r ≠ (createPageDir s.vm).2 := by
    intro heq
    exact h.not_live hc.fresh (heq ▸ hr)
  obtain ⟨own₂, hok₂, hent₂, hcounted⟩ := h.forked hr hroom.le hframes hc
  rw [hfork]
  generalize (createPageDir s.vm).1 = v at *
  generalize (createPageDir s.vm).2 = child at *
  -- The parent keeps the page, write-protected, through the exit of the child.
  have he₂ : entries { s with vm := copyCow v r child, procs := child :: s.procs } r n =
      some e.sharing := by
    rw [hent₂, share, if_pos (Or.inl rfl), he]
    rfl
  have htwo : 2 ≤ (copyCow v r child).cow e.frame := hcounted he
  obtain ⟨own₃, hok₃, -, hent₃⟩ := hok₂.drop List.mem_cons_self
  have hspare := hok₂.exit_spares he₂ (Nat.lt_of_lt_of_le Nat.zero_lt_two htwo) List.mem_cons_self
  have he₃ : (exit { s with vm := copyCow v r child, procs := child :: s.procs } child).1.entries
      r n = some e.sharing := by
    change entries { s with vm := freeUserMemory _ child, procs := _ } r n = _
    rw [hent₃, Function.update_of_ne hne]
    exact he₂
  have hlive : r ∈ (exit { s with vm := copyCow v r child, procs := child :: s.procs }
      child).1.procs :=
    (entries_eq_some.mp he₃).1.1
  have hone : 2 ≤ (exit { s with vm := copyCow v r child, procs := child :: s.procs }
      child).1.vm.cow e.sharing.frame + 1 :=
    htwo.trans hspare.2
  exact (Ok.exit_spares hok₃ he₃ (Nat.lt_of_succ_le (Nat.le_of_succ_le_succ hone)) hlive).1

end Family

/-! ## Every run -/

namespace Family

/-- One step, without what the processes notice. -/
def next (s : Family) (op : Op) : Family := (s.step op).1

/-- Once the last process has gone, every frame is free and no counter is above
zero. -/
def Clean (s : Family) : Prop :=
  s.procs = [] → ∀ f, reservedFrames ≤ f → f < totalFrames →
    s.vm.used f = false ∧ s.vm.cow f = 0

/-- A fork has no page to share, or no frames for the child, and a new page finds
what it needs to be mapped. -/
def NoSharing (s : Family) : Op → Prop
  | .fork r => r ∈ s.procs →
      (∀ n < userPages, leafOf s.vm r (pageVa n) = none) ∨ (freeFrames s.vm).card < 3
  | .map r n _ => r ∈ s.procs ∧ n < userPages → Mappable s.vm r n
  | _ => True

theorem Start.books (h : s.Start) : s.Books fun _ => none := by
  refine ⟨h.ok, h.booted.cow, ?_, ?_⟩
  · intro f r path hf
    cases hf
  intro f hlow hused
  rw [h.booted.used, decide_eq_true_eq] at hused
  exact absurd hlow (Nat.not_le.mpr hused)

/-- One step keeps the books. -/
theorem step_books {own : Owners} (h : s.Books own) {op : Op} (hg : NoSharing s op) :
    ∃ own', Books (s.next op) own' := by
  unfold next step
  cases hv : op.valid s with
  | false => exact ⟨own, h⟩
  | true =>
      cases op with
      | create => exact create_books h
      | fork r => exact fork_books h (of_decide_eq_true hv) (hg (of_decide_eq_true hv))
      | exit r => exact exit_books h (of_decide_eq_true hv)
      | map r n p =>
          have hrn : r ∈ s.procs ∧ n < userPages := of_decide_eq_true hv
          exact map_books h hrn.1 hrn.2 p (hg hrn)
      | writeFault r n =>
          have hrn : r ∈ s.procs ∧ n < userPages := of_decide_eq_true hv
          exact writeFault_books h hrn.1 hrn.2
      | store r n k b => exact ⟨own, store_books h r n k b⟩

theorem Books.clean {own : Owners} (h : s.Books own) : s.Clean := by
  intro hnil f hlow _
  refine ⟨?_, h.cow f⟩
  by_contra hused
  rcases h.accounted hlow (Bool.eq_true_of_not_eq_false hused) with ⟨r, path, hf⟩ | ⟨r, n, e, he, -⟩
  · have := h.ok.roots.mp (h.ok.inv.rooted hf)
    rw [hnil] at this
    cases this
  · have := (entries_eq_some.mp he).1.1
    rw [hnil] at this
    cases this

end Family

/-- In every run whose forks have no page to share, the frames of the processes
are free again once all of them have gone. -/
theorem frames_returned {s : Family} (h : Reach Family.Start Family.NoSharing Family.next s) :
    s.Clean := by
  have hbooks : ∃ own, s.Books own := by
    apply h.invariant (P := fun s => ∃ own, s.Books own)
    · exact fun _ hs => ⟨_, hs.books⟩
    · rintro t op ⟨own, ht⟩ hg
      exact Family.step_books ht hg
  obtain ⟨own, hbooks⟩ := hbooks
  exact hbooks.clean

/-- A program without pages. -/
def oneProcess : Family := ⟨(createPageDir boot.vm).1, fun _ _ => 0, [2048]⟩

theorem boot_dir : (createPageDir boot.vm).2 = 2048 := by
  decide +kernel

theorem oneProcess_next : bootWatched.family.next .create = oneProcess := by
  have hdir := boot_dir
  simp only [Family.next, Family.step, Family.perform, Family.create, Family.Op.valid, bootWatched,
    hdir]
  rfl

theorem oneProcess_created :
    ∃ own, Created boot.vm (fun _ => none) oneProcess.vm own 2048 := by
  have hdir := boot_dir
  rcases createPageDir_created boot_start.booted.inv with ⟨hz, -⟩ | ⟨own, hc⟩
  · rw [hdir] at hz
    cases hz
  · rw [hdir] at hc
    exact ⟨own, hc⟩

/-- It has forked. -/
def twoProcesses : Family := ⟨(createPageDir oneProcess.vm).1, fun _ _ => 0, [2051, 2048]⟩

theorem twoProcesses_next : oneProcess.next (.fork 2048) = twoProcesses := by
  have hdir : (createPageDir oneProcess.vm).2 = 2051 := by
    decide +kernel
  obtain ⟨own, hc⟩ := oneProcess_created
  have hempty := hc.leafOf_new boot_start.booted.inv
  rcases createPageDir_created hc.inv with ⟨hz, -⟩ | ⟨own', hc'⟩
  · rw [hdir] at hz
    cases hz
  · have hnothing := Family.fork_nothing hc.inv hc.root (fun n _ => hempty (pageVa n)) hc'
    rw [hdir] at hnothing
    simp only [Family.next, Family.step, Family.perform, Family.fork, Family.Op.valid, hdir,
      hnothing]
    rfl

theorem twoProcesses_mappable : Family.Mappable twoProcesses.vm 2051 0xC00 := by
  have hfree : ∀ f ∈ [3000, 3001], twoProcesses.vm.used f = false := by
    decide +kernel
  have hsub : ({3000, 3001} : Finset Nat) ⊆ freeFrames twoProcesses.vm := by
    intro f hf
    simp only [Finset.mem_insert, Finset.mem_singleton] at hf
    refine mem_freeFrames.mpr ⟨?_, hfree f (by simpa using hf)⟩
    simp only [reservedFrames, totalFrames]
    omega
  exact Or.inr (Or.inl ⟨by decide, Finset.card_le_card hsub⟩)

/-- A program forks before it has a page, the child gets one, and both exit. -/
theorem frames_returned_after_exits :
    (((twoProcesses.next (.map 2051 0xC00 fun _ => 1)).next (.exit 2048)).next
        (.exit 2051)).procs = [] ∧
      ∀ f, reservedFrames ≤ f → f < totalFrames →
        (((twoProcesses.next (.map 2051 0xC00 fun _ => 1)).next (.exit 2048)).next
          (.exit 2051)).vm.used f = false ∧
        (((twoProcesses.next (.map 2051 0xC00 fun _ => 1)).next (.exit 2048)).next
          (.exit 2051)).vm.cow f = 0 := by
  have hnil : (((twoProcesses.next (.map 2051 0xC00 fun _ => 1)).next (.exit 2048)).next
      (.exit 2051)).procs = [] := by
    decide +kernel
  have hone : Reach Family.Start Family.NoSharing Family.next oneProcess := by
    rw [← oneProcess_next]
    exact Reach.next _ (Reach.start bootWatched_start.family) trivial
  have htwo : Reach Family.Start Family.NoSharing Family.next twoProcesses := by
    rw [← twoProcesses_next]
    obtain ⟨own, hc⟩ := oneProcess_created
    exact Reach.next _ hone fun _ => Or.inl fun n _ => hc.leafOf_new boot_start.booted.inv _
  refine ⟨hnil, frames_returned ?_ hnil⟩
  refine Reach.next _ (Reach.next _ (Reach.next _ htwo fun _ => twoProcesses_mappable) ?_) ?_
  · trivial
  · trivial

theorem Family.next_exit (hr : r ∈ s.procs) : s.next (.exit r) = (Family.exit s r).1 := by
  simp [Family.next, Family.step, Family.perform, Family.Op.valid, hr]

theorem Family.next_fork (hr : r ∈ s.procs) : s.next (.fork r) = (Family.fork s r).1 := by
  simp [Family.next, Family.step, Family.perform, Family.Op.valid, hr]

/-- A program with a page forks, and both processes exit: the page stays in
use. -/
theorem shared_page_lost :
    ¬ ∀ s, Reach Family.Start anyInput Family.next s → s.Clean := by
  intro h
  have hreach : Reach Family.Start anyInput Family.next
      (((onePage.family.next (.fork 2048)).next (.exit 2053)).next (.exit 2048)) := by
    have hpage : onePage.family =
        (bootWatched.family.next .create).next (.map 2048 0xC00 fun _ => 1) := rfl
    refine Reach.next _ (Reach.next _ (Reach.next _ ?_ trivial) trivial) trivial
    rw [hpage]
    refine Reach.next _ (Reach.next _ (Reach.start bootWatched_start.family) ?_) ?_
    · trivial
    · trivial
  have hprocs : onePage.family.procs = [2048] ∧
      (onePage.family.next (.fork 2048)).procs = [2053, 2048] ∧
      ((onePage.family.next (.fork 2048)).next (.exit 2053)).procs = [2048] ∧
      (((onePage.family.next (.fork 2048)).next (.exit 2053)).next (.exit 2048)).procs = [] := by
    decide +kernel
  obtain ⟨hone, htwo, hback, hnil⟩ := hprocs
  obtain ⟨hcount, own, hok, -⟩ := onePage_shows
  have hpage : onePage.family.entries 2048 0xC00 = some (PTE.userRW 2051) := by
    rw [Family.entries_of_live (by rw [hone]; decide) (by decide)]
    decide +kernel
  have hchild : (createPageDir onePage.family.vm).2 = 2053 := by
    decide +kernel
  have hleak := hok.fork_leaks (by rw [hone]; decide) onePage_frames hpage
  have hfree := (h _ hreach hnil 2051 (by decide) (by decide)).1
  rw [Family.next_exit (by rw [hback]; decide), Family.next_exit (by rw [htwo]; decide),
    Family.next_fork (by rw [hone]; decide)] at hfree
  rw [hchild] at hleak
  rw [show (PTE.userRW 2051).frame = 2051 from rfl, hfree] at hleak
  cases hleak

end OriaOS.Vmm
