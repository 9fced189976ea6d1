import OriaOS.Heap.Malloc

/-!
# Runs of the kernel heap

A run starts at `mem_init` and takes `malloc` and `free` calls in any order,
`free` only on a pointer that `malloc` returned and that has not been freed
since. The block list of every reached heap tiles the region, its allocated
blocks are exactly the live allocations, and no two neighbours are free.
-/

namespace OriaOS.Heap

open Lib Lib.BlockList

variable {h : KHeap} {bs : List Blk} {n p : Nat}

/-- A heap with the live allocations, each a returned pointer and the size
that was asked for. -/
structure HeapRun where
  heap : KHeap
  live : List (Nat × Nat)

inductive HeapOp where
  | malloc (n : Nat)
  | free (p : Nat)
  deriving Repr, DecidableEq

/-- One call. A call that does not return leaves `none`. -/
def heapStep : Option HeapRun → HeapOp → Option HeapRun
  | none, _ => none
  | some s, .malloc n => (malloc s.heap n).map fun r =>
      ⟨r.1, if r.2 = 0 then s.live else (r.2, n) :: s.live⟩
  | some s, .free p => (free s.heap p).map fun h =>
      ⟨h, s.live.filter fun e => e.1 ≠ p⟩

/-- The state `mem_init` leaves, whatever the memory held before. -/
def Started (o : Option HeapRun) : Prop :=
  ∃ mem, o = some ⟨memInit mem, []⟩

/-- The calls a run may make: any request that the rounding does not wrap, and
`free` of a live pointer. -/
def Callable : Option HeapRun → HeapOp → Prop
  | none, _ => False
  | some _, .malloc n => 1 ≤ n ∧ n ≤ 2 ^ 32 - 4
  | some s, .free p => ∃ n, (p, n) ∈ s.live

/-- The block list `bs` is the heap's list and tiles the region exactly. -/
structure Tiles (h : KHeap) (bs : List Blk) : Prop where
  head : h.head = heapStart
  linked : Linked headerSize h.mem heapStart bs
  span : span headerSize bs = heapSize

/-- `p` is the payload address of the allocated block `b` of the list. -/
def Payload (bs : List Blk) (p : Nat) (b : Blk) : Prop :=
  ∃ a, p = a + headerSize ∧ (a, b) ∈ taken headerSize heapStart bs

/-- Two byte ranges share no byte. -/
def Apart (p m q n : Nat) : Prop := p + m ≤ q ∨ q + n ≤ p

/-- The run invariant. -/
structure HeapInv (s : HeapRun) (bs : List Blk) : Prop where
  tiles : Tiles s.heap bs
  pair : NoFreePair bs
  live : (s.live.map Prod.fst).Perm
    ((taken headerSize heapStart bs).map fun q => q.1 + headerSize)
  size : ∀ e ∈ s.live, ∃ b, Payload bs e.1 b ∧ e.2 ≤ b.size

theorem Tiles.ne_nil (t : Tiles h bs) : bs ≠ [] := by
  rintro rfl
  exact absurd t.span (by simp [BlockList.span, heapSize])

/-- Every block has a header, so a list has fewer blocks than the walk bound. -/
theorem length_le_span (bs : List Blk) : headerSize * bs.length ≤ span headerSize bs := by
  induction bs with
  | nil => simp
  | cons b bs ih =>
      simp only [List.length_cons, BlockList.span, Nat.mul_add]
      omega

theorem Tiles.length_lt (t : Tiles h bs) : bs.length < heapSize := by
  have hle := length_le_span bs
  rw [t.span] at hle
  simp only [headerSize, heapSize] at hle ⊢
  omega

/-! ## Single calls -/

/-- `malloc` returns, and its effect on the block list is the first-fit choice. It
writes headers of the new list only. -/
theorem malloc_spec (t : Tiles h bs) (hn : n ≠ 0) :
    match firstFit headerSize 4 (roundUp n) bs with
    | none => malloc h n = some (h, 0)
    | some (off, bs') => ∃ h', malloc h n = some (h', heapStart + off + headerSize) ∧
        Tiles h' bs' ∧
          ∀ x, (∀ b, (x, b) ∉ positions headerSize heapStart bs') → h'.mem x = h.mem x := by
  have hloop := mallocLoop_spec (roundUp n) heapSize t.linked t.ne_nil
    (by decide) t.length_lt (Nat.le_of_eq t.span)
  cases hfit : firstFit headerSize 4 (roundUp n) bs with
  | none =>
      simp only [hfit] at hloop
      rw [malloc, if_neg hn, t.head, hloop, ← t.head]
      rfl
  | some r =>
      obtain ⟨off, bs'⟩ := r
      simp only [hfit] at hloop
      obtain ⟨m', hm', hl', hframe⟩ := hloop
      refine ⟨{ h with mem := m' }, by simp [malloc, hn, t.head, hm'], ⟨t.head, hl', ?_⟩, hframe⟩
      rw [firstFit_span headerSize hfit, t.span]

/-- `free` returns, and marks one block before joining free neighbours. -/
theorem free_spec (t : Tiles h bs) (hp : p ≠ 0) :
    ∃ h', free h p = some h' ∧
      Tiles h' (merge headerSize (markFree headerSize (p - headerSize) heapStart bs)) ∧
        ∀ x, x ≠ p - headerSize → (∀ b, (x, b) ∉ positions headerSize heapStart bs) →
          h'.mem x = h.mem x := by
  have hspan : span headerSize (markFree headerSize (p - headerSize) heapStart bs) =
      heapSize := by rw [markFree_span, t.span]
  obtain ⟨m', hm', hl', hframe⟩ := coalesceLoop_spec heapSize
    (linked_markFree (x := p - headerSize) t.linked) (markFree_ne_nil t.ne_nil) (by decide)
    (by rw [markFree_length]; exact t.length_lt) (Nat.le_of_eq hspan)
  refine ⟨{ h with mem := m' }, by simp [free, hp, t.head, hm'], ⟨t.head, hl', ?_⟩, ?_⟩
  · rw [merge_span, hspan]
  · intro x hx hout
    have hkept := hframe x fun b hb =>
      (mem_positions_markFree headerSize hb).elim hout
    rw [Function.update_of_ne hx] at hkept
    exact hkept

/-! ## The invariant along a run -/

theorem heapInv_init (mem : Nat → Cell) :
    HeapInv ⟨memInit mem, []⟩ [⟨heapSize - headerSize, true⟩] where
  tiles := by
    refine ⟨rfl, ⟨?_, trivial⟩, by simp [BlockList.span, headerSize, heapSize]⟩
    simp [memInit, u32, headerSize, heapSize]
  pair := trivial
  live := by simp [taken_cons_free]
  size := by simp

theorem heapInv_malloc {s : HeapRun} (inv : HeapInv s bs) (h1 : 1 ≤ n) (h2 : n ≤ 2 ^ 32 - 4) :
    ∃ s' bs', heapStep (some s) (.malloc n) = some s' ∧ HeapInv s' bs' ∧
      ∀ x, (∀ b, (x, b) ∉ positions headerSize heapStart bs') →
        s'.heap.mem x = s.heap.mem x := by
  have hspec := malloc_spec inv.tiles (n := n) (by omega)
  cases hfit : firstFit headerSize 4 (roundUp n) bs with
  | none =>
      simp only [hfit] at hspec
      exact ⟨s, bs, by simp [heapStep, hspec], inv, fun _ _ => rfl⟩
  | some r =>
      obtain ⟨off, bs'⟩ := r
      simp only [hfit] at hspec
      obtain ⟨h', hm, ht, hframe⟩ := hspec
      obtain ⟨b, hbfree, hbsize, hperm⟩ := firstFit_taken headerSize hfit heapStart
      have hnz : heapStart + off + headerSize ≠ 0 := by simp [heapStart]
      -- a block that was allocated before keeps its place and its size
      have hkeep : ∀ p c, Payload bs p c → Payload bs' p c := by
        rintro p c ⟨a, rfl, ha⟩
        exact ⟨a, rfl, hperm.mem_iff.mpr (List.mem_cons_of_mem _ ha)⟩
      refine ⟨⟨h', (heapStart + off + headerSize, n) :: s.live⟩, bs', ?_, ⟨ht,
        firstFit_noFreePair headerSize hfit inv.pair, ?_, ?_⟩, hframe⟩
      · simp only [heapStep, hm, Option.map_some, if_neg hnz]
      · refine List.Perm.trans ?_ ((hperm.map fun q => q.1 + headerSize).symm)
        simpa using inv.live
      · intro e he
        rcases List.mem_cons.mp he with rfl | he
        · exact ⟨b, ⟨heapStart + off, rfl, hperm.mem_iff.mpr (by simp)⟩,
            Nat.le_trans (roundUp_le h1 h2).1 hbsize⟩
        · obtain ⟨c, hc, hle⟩ := inv.size e he
          exact ⟨c, hkeep _ _ hc, hle⟩

theorem heapInv_free {s : HeapRun} (inv : HeapInv s bs) (hp : (p, n) ∈ s.live) :
    ∃ s' bs', heapStep (some s) (.free p) = some s' ∧ HeapInv s' bs' ∧
      ∀ x, (∀ b, (x, b) ∉ positions headerSize heapStart bs) →
        s'.heap.mem x = s.heap.mem x := by
  obtain ⟨b, ⟨a, hpa, hat⟩, -⟩ := inv.size _ hp
  have hpa : p = a + headerSize := hpa
  have hnz : p ≠ 0 := by simp only [hpa, headerSize]; omega
  have hsub : p - headerSize = a := by omega
  obtain ⟨h', hf, ht, hkept⟩ := free_spec inv.tiles hnz
  rw [hsub] at ht hkept
  have hframe : ∀ x, (∀ b, (x, b) ∉ positions headerSize heapStart bs) →
      h'.mem x = s.heap.mem x := by
    intro x hout
    apply hkept x _ hout
    rintro rfl
    exact hout b ((mem_taken _).mp hat).1
  have htaken : taken headerSize heapStart
      (merge headerSize (markFree headerSize a heapStart bs)) =
        (taken headerSize heapStart bs).filter fun q => q.1 ≠ a := by
    rw [merge_taken, markFree_taken]
  refine ⟨⟨h', s.live.filter fun e => e.1 ≠ p⟩, _, by simp [heapStep, hf], ⟨ht,
    merge_noFreePair headerSize _, ?_, ?_⟩, hframe⟩
  · rw [htaken]
    have hfilter := inv.live.filter fun x => x ≠ p
    rw [List.filter_map, List.filter_map] at hfilter
    have hcongr : (taken headerSize heapStart bs).filter
        ((fun x => decide (x ≠ p)) ∘ fun q => q.1 + headerSize) =
          (taken headerSize heapStart bs).filter fun q => decide (q.1 ≠ a) := by
      apply List.filter_congr
      intro q _
      simp [hpa]
    rw [hcongr] at hfilter
    exact hfilter
  · intro e he
    obtain ⟨he, hne⟩ := List.mem_filter.mp he
    obtain ⟨c, ⟨a', hea, hmem⟩, hle⟩ := inv.size e he
    refine ⟨c, ⟨a', hea, ?_⟩, hle⟩
    rw [htaken]
    refine List.mem_filter.mpr ⟨hmem, ?_⟩
    have hne' : e.1 ≠ p := by simpa using hne
    have : a' ≠ a := by omega
    simpa using this

theorem heapInv_reach {o : Option HeapRun} (r : Reach Started Callable heapStep o) :
    ∃ s bs, o = some s ∧ HeapInv s bs := by
  refine r.invariant (P := fun o => ∃ s bs, o = some s ∧ HeapInv s bs) ?_ ?_
  · rintro o ⟨mem, rfl⟩
    exact ⟨_, _, rfl, heapInv_init mem⟩
  · rintro o op ⟨s, bs, rfl, inv⟩ hcall
    cases op with
    | malloc n =>
        obtain ⟨s', bs', hs', inv', -⟩ := heapInv_malloc inv hcall.1 hcall.2
        exact ⟨s', bs', hs', inv'⟩
    | free p =>
        obtain ⟨n, hp⟩ := hcall
        obtain ⟨s', bs', hs', inv', -⟩ := heapInv_free inv hp
        exact ⟨s', bs', hs', inv'⟩

/-! ## Consequences -/

theorem HeapInv.nodup {s : HeapRun} (inv : HeapInv s bs) : (s.live.map Prod.fst).Nodup := by
  refine (inv.live.nodup_iff).mpr ?_
  have hnd := taken_nodup headerSize (by decide) heapStart bs
  have hmap : (taken headerSize heapStart bs).map (fun q => q.1 + headerSize) =
      ((taken headerSize heapStart bs).map Prod.fst).map (· + headerSize) := by
    rw [List.map_map]
    rfl
  rw [hmap]
  exact hnd.map fun x y h => by omega

/-- A payload shares no byte with another payload or with any header. -/
theorem payload_apart {b : Blk} (hb : Payload bs p b) :
    (∀ q c, Payload bs q c → p ≠ q → Apart p b.size q c.size) ∧
      ∀ q ∈ positions headerSize heapStart bs, Apart p b.size q.1 headerSize := by
  obtain ⟨a, rfl, ha⟩ := hb
  have hpos := ((mem_taken _).mp ha).1
  constructor
  · rintro q c ⟨a', rfl, ha'⟩ hne
    rcases positions_disjoint headerSize hpos ((mem_taken _).mp ha').1 with heq | hlt | hlt
    · exact absurd (by rw [(Prod.mk.inj heq).1]) hne
    · exact Or.inl (by simp only at hlt; omega)
    · exact Or.inr (by simp only at hlt; omega)
  · intro q hq
    rcases positions_disjoint headerSize hpos hq with rfl | hlt | hlt
    · exact Or.inr (Nat.le_refl _)
    · exact Or.inl (by simp only at hlt; omega)
    · exact Or.inr (by simp only at hlt; omega)

/-- In every reached state all calls so far have returned, the list from
`HEAP_START` tiles the region without two neighbouring free blocks, no payload
is live twice, the live payloads are large enough and overlap neither each other
nor a header, `malloc` returns zero only without a free block of the rounded size
and else a payload of the requested size, and with nothing live the heap is the
initial free block. -/
theorem heap_tiled {o : Option HeapRun} (r : Reach Started Callable heapStep o) :
    ∃ s bs, o = some s ∧ Tiles s.heap bs ∧ NoFreePair bs ∧ (s.live.map Prod.fst).Nodup ∧
      (∀ e ∈ s.live, ∃ b, Payload bs e.1 b ∧ e.2 ≤ b.size) ∧
      (∀ e ∈ s.live, ∀ f ∈ s.live, e ≠ f → ∀ b c, Payload bs e.1 b → Payload bs f.1 c →
        Apart e.1 b.size f.1 c.size) ∧
      (∀ e ∈ s.live, ∀ b, Payload bs e.1 b →
        ∀ q ∈ positions headerSize heapStart bs, Apart e.1 b.size q.1 headerSize) ∧
      (∀ n, 1 ≤ n → n ≤ 2 ^ 32 - 4 → ∃ h p, malloc s.heap n = some (h, p) ∧
        (p = 0 → ∀ b ∈ bs, b.free = true → b.size < roundUp n) ∧
        (p ≠ 0 → ∃ bs' b, Tiles h bs' ∧ Payload bs' p b ∧ n ≤ b.size)) ∧
      (s.live = [] → bs = [⟨heapSize - headerSize, true⟩]) := by
  obtain ⟨s, bs, rfl, inv⟩ := heapInv_reach r
  refine ⟨s, bs, rfl, inv.tiles, inv.pair, inv.nodup, inv.size, ?_, ?_, ?_, ?_⟩
  · intro e he f hf hne b c hb hc
    refine (payload_apart hb).1 f.1 c hc ?_
    intro heq
    exact hne (List.inj_on_of_nodup_map inv.nodup he hf heq)
  · intro e _ b hb
    exact (payload_apart hb).2
  · intro n h1 h2
    have hspec := malloc_spec inv.tiles (n := n) (by omega)
    cases hfit : firstFit headerSize 4 (roundUp n) bs with
    | none =>
        simp only [hfit] at hspec
        exact ⟨s.heap, 0, hspec, fun _ => (firstFit_eq_none_iff headerSize).mp hfit,
          fun h => absurd rfl h⟩
    | some r =>
        obtain ⟨off, bs'⟩ := r
        simp only [hfit] at hspec
        obtain ⟨h', hm, ht, -⟩ := hspec
        obtain ⟨b, -, hbsize, hperm⟩ := firstFit_taken headerSize hfit heapStart
        have hnz : heapStart + off + headerSize ≠ 0 := by simp [heapStart]
        exact ⟨h', _, hm, fun h => absurd h hnz, fun _ => ⟨bs', b, ht,
          ⟨heapStart + off, rfl, hperm.mem_iff.mpr (by simp)⟩,
          Nat.le_trans (roundUp_le h1 h2).1 hbsize⟩⟩
  · intro hlive
    have hnil : taken headerSize heapStart bs = [] := by
      have hperm := inv.live
      rw [hlive] at hperm
      simpa using hperm.symm.eq_nil
    have hone := eq_single_of_taken_nil headerSize inv.tiles.ne_nil inv.pair hnil
    rwa [inv.tiles.span] at hone

/-- A heap after its first allocation is covered. -/
theorem heap_tiled_after_malloc : ∃ s bs,
    heapStep (some ⟨memInit fun _ => ⟨0, false, 0⟩, []⟩) (.malloc 10) = some s ∧
      Tiles s.heap bs ∧ NoFreePair bs := by
  have hcall : Callable (some ⟨memInit fun _ => ⟨0, false, 0⟩, []⟩) (.malloc 10) :=
    ⟨by decide, by decide⟩
  obtain ⟨s, bs, hs, ht, hp, -⟩ := heap_tiled
    (Reach.next (HeapOp.malloc 10) (Reach.start ⟨fun _ => ⟨0, false, 0⟩, rfl⟩) hcall)
  exact ⟨s, bs, hs, ht, hp⟩

end OriaOS.Heap
