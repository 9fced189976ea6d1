import OriaOS.Vmm.Mapping

/-!
# Creating and tearing down an address space

`vmm_create_page_dir` makes three tables at once, so the invariant is shown for
the three together. `vmm_free_user_memory` leaves the tables in memory as they
are while it releases one frame after the other. The address space is taken out
of the ownership map first. What remains is a list of places that are still to be
released, each at most once.
-/

namespace OriaOS.Vmm

/-! ## A new address space -/

section Create
variable {v v' : Vm} {own : Owners} {a b c : Nat}

/-- The ownership map with the three tables of a new address space. -/
def addSpace (own : Owners) (a b c : Nat) : Owners :=
  addTable (addTable (addTable own a a []) b a [0]) c a [0, 0]

/-- Memory after the three tables have been filled. -/
structure Filled (v v' : Vm) (a b c : Nat) : Prop where
  other : ∀ q, q ≠ a → q ≠ b → q ≠ c → v'.mem q = v.mem q
  top : ∀ k, v'.mem a k = if k = 0 then PTE.userRW b else PTE.zero
  link : v'.mem b 0 = PTE.userRW c
  small : ∀ k, (v'.mem b k).large = false
  boots : ∀ k, k ≠ 0 → (v'.mem b k).present = true → IsBootPd (v'.mem b k).frame
  huge : ∀ k, (v'.mem c k).present = true → (v'.mem c k).large = true
  out : ∀ k, (v'.mem c k).large = true → OutOfRange (v'.mem c k).frame
  stack : (v'.mem c 3).present = true
  used : v'.used = v.used
  cow : v'.cow = v.cow
  once : v'.doubleFree = v.doubleFree

theorem addSpace_self (own : Owners) (hab : a ≠ b) (hac : a ≠ c) (hbc : b ≠ c) :
    addSpace own a b c a = some (.table a []) ∧ addSpace own a b c b = some (.table a [0]) ∧
      addSpace own a b c c = some (.table a [0, 0]) := by
  refine ⟨?_, ?_, addTable_self⟩
  · rw [addSpace, addTable_of_ne hac, addTable_of_ne hab, addTable_self]
  · rw [addSpace, addTable_of_ne hbc, addTable_self]

/-- An owner of the new map is one of the three tables or an old owner. -/
theorem addSpace_cases {g : Nat} {o : Owner} (hg : addSpace own a b c g = some o) :
    g = a ∧ o = .table a [] ∨ g = b ∧ o = .table a [0] ∨ g = c ∧ o = .table a [0, 0] ∨
      (g ≠ a ∧ g ≠ b ∧ g ≠ c) ∧ own g = some o := by
  rcases addTable_cases hg with hc | ⟨hgc, hg⟩
  · exact Or.inr (Or.inr (Or.inl hc))
  · rcases addTable_cases hg with hb | ⟨hgb, hg⟩
    · exact Or.inr (Or.inl hb)
    · rcases addTable_cases hg with ha | ⟨hga, hg⟩
      · exact Or.inl ha
      · exact Or.inr (Or.inr (Or.inr ⟨⟨hga, hgb, hgc⟩, hg⟩))

/-- A table of the new map is one of the three or an old one. -/
theorem addSpace_table {g r : Nat} {path : List Nat}
    (hg : addSpace own a b c g = some (.table r path)) :
    r = a ∧ (g = a ∧ path = [] ∨ g = b ∧ path = [0] ∨ g = c ∧ path = [0, 0]) ∨
      (g ≠ a ∧ g ≠ b ∧ g ≠ c) ∧ own g = some (.table r path) := by
  rcases addSpace_cases hg with ⟨hga, ho⟩ | ⟨hgb, ho⟩ | ⟨hgc, ho⟩ | hold
  · exact Or.inl ⟨(Owner.table.inj ho).1, Or.inl ⟨hga, (Owner.table.inj ho).2⟩⟩
  · exact Or.inl ⟨(Owner.table.inj ho).1, Or.inr (Or.inl ⟨hgb, (Owner.table.inj ho).2⟩)⟩
  · exact Or.inl ⟨(Owner.table.inj ho).1, Or.inr (Or.inr ⟨hgc, (Owner.table.inj ho).2⟩)⟩
  · exact Or.inr hold

/-- Its page tables and its pages are old ones. -/
theorem addSpace_deep {g r : Nat} {path : List Nat} (hlen : path.length = 3)
    (hg : addSpace own a b c g = some (.table r path)) :
    (g ≠ a ∧ g ≠ b ∧ g ≠ c) ∧ own g = some (.table r path) := by
  rcases addSpace_table hg with ⟨-, ⟨-, rfl⟩ | ⟨-, rfl⟩ | ⟨-, rfl⟩⟩ | hold
  · cases hlen
  · cases hlen
  · cases hlen
  · exact hold

theorem addSpace_page {g d : Nat} {path : List Nat}
    (hg : addSpace own a b c g = some (.page path d)) : own g = some (.page path d) := by
  rcases addSpace_cases hg with ⟨-, ho⟩ | ⟨-, ho⟩ | ⟨-, ho⟩ | ⟨-, hold⟩
  · cases ho
  · cases ho
  · cases ho
  · exact hold

section Held
variable (ha : own a = none) (hb : own b = none) (hc : own c = none)
include ha hb hc

/-- Old owners are other frames, and stay. -/
theorem addSpace_old {g : Nat} {o : Owner} (hg : own g = some o) :
    (g ≠ a ∧ g ≠ b ∧ g ≠ c) ∧ addSpace own a b c g = some o := by
  have hga := ne_of_owned ha hg
  have hgb := ne_of_owned hb hg
  have hgc := ne_of_owned hc hg
  refine ⟨⟨hga, hgb, hgc⟩, ?_⟩
  rw [addSpace, addTable_of_ne hgc, addTable_of_ne hgb, addTable_of_ne hga]
  exact hg

theorem Shape.newSpace (h : Shape own) (hab : a ≠ b) (hac : a ≠ c) (hbc : b ≠ c) :
    Shape (addSpace own a b c) := by
  have h₁ : Shape (addTable own a a []) := by
    apply h.newTable ha
    · exact Nat.zero_le 3
    · simp
    · exact addTable_self
    · exact fun _ => rfl
  have h₂ : Shape (addTable (addTable own a a []) b a [0]) := by
    apply h₁.newTable
    · rw [addTable_of_ne hab.symm, hb]
    · decide
    · simp
    · rw [addTable_of_ne hab, addTable_self]
    · simp
  apply h₂.newTable
  · rw [addTable_of_ne hbc.symm, addTable_of_ne hac.symm, hc]
  · decide
  · simp
  · exact (addSpace_self own hab hac hbc).1
  · simp

end Held

/-- Three held frames, filled as `vmm_create_page_dir` fills them, become an
address space. -/
theorem inv_addSpace (h : Inv v own) (ha : Held v own a) (hb : Held v own b) (hc : Held v own c)
    (hab : a ≠ b) (hac : a ≠ c) (hbc : b ≠ c) (hfill : Filled v v' a b c) :
    Inv v' (addSpace own a b c) := by
  obtain ⟨hA, hB, hC⟩ := addSpace_self own hab hac hbc
  have hshape := h.shape.newSpace ha.unowned hb.unowned hc.unowned hab hac hbc
  have hkeep {g : Nat} {o : Owner} (hg : own g = some o) :=
    addSpace_old ha.unowned hb.unowned hc.unowned hg
  have hother {g : Nat} (hg : g ≠ a ∧ g ≠ b ∧ g ≠ c) : v'.mem g = v.mem g :=
    hfill.other g hg.1 hg.2.1 hg.2.2
  have hfew : Fewer v own v' (addSpace own a b c) := by
    intro q r path d hlen hq _
    obtain ⟨hne, ho⟩ := addSpace_deep hlen hq
    exact ⟨ho, by rw [hother hne]⟩
  constructor
  case range =>
    intro g o hg
    rw [hfill.used]
    rcases addSpace_cases hg with ⟨rfl, -⟩ | ⟨rfl, -⟩ | ⟨rfl, -⟩ | ⟨-, ho⟩
    · exact ⟨ha.low, ha.high, ha.used⟩
    · exact ⟨hb.low, hb.high, hb.used⟩
    · exact ⟨hc.low, hc.high, hc.used⟩
    · exact h.range ho
  case reserved =>
    intro f hf
    rw [hfill.used]
    exact h.reserved f hf
  case tableDepth => exact hshape.tableDepth
  case pageDepth => exact hshape.pageDepth
  case bounded => exact hshape.bounded
  case rooted => exact hshape.rooted
  case top => exact hshape.top
  case linked =>
    intro g r path i hg
    rcases addSpace_table hg with ⟨rfl, ⟨-, ho⟩ | ⟨rfl, ho⟩ | ⟨rfl, ho⟩⟩ | ⟨-, ho⟩
    · simp at ho
    · obtain ⟨rfl, rfl⟩ := List.append_singleton_inj.mp (show path ++ [i] = [] ++ [0] from ho)
      exact ⟨r, hA, by simp [hfill.top, PTE.userRW], by simp [hfill.top, PTE.userRW]⟩
    · obtain ⟨rfl, rfl⟩ := List.append_singleton_inj.mp (show path ++ [i] = [0] ++ [0] from ho)
      exact ⟨b, hB, by simp [hfill.link, PTE.userRW], by simp [hfill.link, PTE.userRW]⟩
    · obtain ⟨p, hp, hpres, hframe⟩ := h.linked ho
      obtain ⟨hne, hp'⟩ := hkeep hp
      rw [← hother hne] at hpres hframe
      exact ⟨p, hp', hpres, hframe⟩
  case child =>
    intro p r path i hp hlen hpres hlarge
    rcases addSpace_table hp with ⟨rfl, ⟨rfl, rfl⟩ | ⟨rfl, rfl⟩ | ⟨rfl, rfl⟩⟩ | ⟨hne, ho⟩
    · rw [hfill.top] at hpres ⊢
      by_cases hi : i = 0
      · subst hi
        exact Or.inl hB
      · rw [if_neg hi] at hpres
        cases hpres
    · by_cases hi : i = 0
      · subst hi
        rw [hfill.link]
        exact Or.inl hC
      · exact Or.inr ⟨hfill.boots i hi hpres, rfl, hi⟩
    · rw [hfill.huge i hpres] at hlarge
      cases hlarge
    · rw [hother hne] at hpres hlarge ⊢
      exact (h.child ho hlen hpres hlarge).imp_left fun hg => (hkeep hg).2
  case large =>
    intro p r path i hp hlen hlarge
    rcases addSpace_table hp with ⟨rfl, ⟨rfl, rfl⟩ | ⟨rfl, rfl⟩ | ⟨rfl, rfl⟩⟩ | ⟨hne, ho⟩
    · rw [hfill.top] at hlarge
      split at hlarge
      · cases hlarge
      · cases hlarge
    · rw [hfill.small] at hlarge
      cases hlarge
    · exact ⟨rfl, hfill.out i hlarge⟩
    · rw [hother hne] at hlarge ⊢
      exact h.large ho hlen hlarge
  case leaf =>
    intro p r path d hp hlen hpres
    obtain ⟨ho, he⟩ := hfew p r path d hlen hp hpres
    rw [he] at hpres ⊢
    exact (h.leaf ho hlen hpres).imp_right fun hg => (hkeep hg).2
  case spine =>
    intro p r hp
    have hspine {path : List Nat} (hp : addSpace own a b c p = some (.table r path))
        (hpath : path = [] ∨ path = [0]) : (v'.mem p 0).present = true := by
      rcases addSpace_table hp with ⟨rfl, ⟨rfl, -⟩ | ⟨rfl, -⟩ | ⟨-, rfl⟩⟩ | ⟨hne, ho⟩
      · simp [hfill.top, PTE.userRW]
      · simp [hfill.link, PTE.userRW]
      · simp at hpath
      · rw [hother hne]
        rcases hpath with rfl | rfl
        · exact h.spine (Or.inl ho)
        · exact h.spine (Or.inr ho)
    rcases hp with hp | hp
    · exact hspine hp (Or.inl rfl)
    · exact hspine hp (Or.inr rfl)
  case stackPd =>
    intro p r hp
    rcases addSpace_table hp with ⟨-, ⟨-, ho⟩ | ⟨-, ho⟩ | ⟨rfl, -⟩⟩ | ⟨hne, ho⟩
    · cases ho
    · cases ho
    · exact ⟨hfill.stack, hfill.huge 3 hfill.stack⟩
    · rw [hother hne]
      exact h.stackPd ho
  case shared =>
    intro g path d hg hcard
    rw [hfill.cow]
    exact h.shared_of_fewer hfew (addSpace_page hg) hcard
  case byte =>
    intro f
    rw [hfill.cow]
    exact h.byte f
  case boot =>
    intro f i hf hi
    have hne {g : Nat} (hg : Held v own g) : f ≠ g := by
      rintro rfl
      exact hg.not_boot hf
    rw [hother ⟨hne ha, hne hb, hne hc⟩]
    exact h.boot hf hi
  case once =>
    rw [hfill.once]
    exact h.once

/-- A loop that sets entries of one table. -/
theorem foldl_setEntry_mem (e : Nat → PTE) (l : List Nat) (w : Vm) (p q k : Nat) :
    (l.foldl (fun w i => setEntry w p i (e i)) w).mem q k =
      if q = p ∧ k ∈ l then e k else w.mem q k := by
  induction l generalizing w with
  | nil => simp
  | cons i l ih =>
      rw [List.foldl_cons, ih, setEntry_mem]
      by_cases hq : q = p
      · by_cases hk : k ∈ l
        · simp [hq, hk]
        · by_cases hki : k = i
          · simp [hq, hki]
          · simp [hq, hk, hki]
      · simp [hq]

/-- The entries of the new page directory: 2 MB pages of the kernel. -/
theorem fillPageDir_pd (hca : c ≠ a) (hcb : c ≠ b) (w : Vm) (hmem : ∀ k, w.mem c k = PTE.zero)
    (k : Nat) :
    (fillPageDir w a b c).mem c k =
      if k ∈ [32, 33, 34, 35, 36, 37] then PTE.kernelLarge (k * 512)
      else if k ∈ [0, 1, 2, 3] then PTE.userLarge (k * 512) else PTE.zero := by
  unfold fillPageDir
  simp only [foldl_setEntry_mem, setEntry_mem, hca, hcb, hmem, true_and, false_and, if_false]

theorem fillPageDir_other {q : Nat} (hqc : q ≠ c) (w : Vm) (k : Nat) :
    (fillPageDir w a b c).mem q k =
      if q = b ∧ k = 3 then PTE.kernelRW 6 else if q = b ∧ k = 2 then PTE.kernelRW 5
      else if q = b ∧ k = 1 then PTE.kernelRW 4 else if q = b ∧ k = 0 then PTE.userRW c
      else if q = a ∧ k = 0 then PTE.userRW b else w.mem q k := by
  unfold fillPageDir
  simp only [foldl_setEntry_mem, setEntry_mem, hqc, false_and, if_false]

/-- The entries that end up in the three tables. -/
theorem fillPageDir_filled (hab : a ≠ b) (hac : a ≠ c) (hbc : b ≠ c) (w : Vm)
    (hmem : ∀ q k, w.mem q k = if q = a ∨ q = b ∨ q = c then PTE.zero else v.mem q k)
    (hused : w.used = v.used) (hcow : w.cow = v.cow) (honce : w.doubleFree = v.doubleFree) :
    Filled v (fillPageDir w a b c) a b c := by
  have hpd := fillPageDir_pd hac.symm hbc.symm w (fun k => by simp [hmem])
  have hpdpt (k : Nat) := fillPageDir_other (a := a) (b := b) hbc w k
  simp only [hab.symm, hmem, true_and, false_and, if_false, true_or, or_true, if_true] at hpdpt
  constructor
  · intro q hqa hqb hqc
    funext k
    simp [fillPageDir_other hqc, hqa, hqb, hqc, hmem]
  · intro k
    simp [fillPageDir_other hac, hab, hmem]
  · simp [hpdpt]
  · intro k
    rw [hpdpt]
    split_ifs <;> rfl
  · intro k hk hpres
    rw [hpdpt] at hpres ⊢
    split_ifs at hpres ⊢
    · exact ⟨by decide, by decide⟩
    · exact ⟨by decide, by decide⟩
    · exact ⟨by decide, by decide⟩
    · cases hpres
  · intro k hpres
    rw [hpd] at hpres ⊢
    split_ifs at hpres ⊢
    · rfl
    · rfl
    · cases hpres
  · intro k hlarge
    rw [hpd] at hlarge ⊢
    split_ifs at hlarge ⊢ with hk hk'
    · right
      have : 32 ≤ k := by
        simp only [List.mem_cons, List.not_mem_nil, or_false] at hk
        omega
      exact Nat.mul_le_mul_right 512 this
    · left
      have : k < 4 := by
        simp only [List.mem_cons, List.not_mem_nil, or_false] at hk'
        omega
      exact Nat.mul_lt_mul_of_pos_right this (by decide)
    · cases hlarge
  · rw [hpd]
    rfl
  · exact hused
  · exact hcow
  · exact honce

end Create

/-- A new address space next to those that were there. -/
structure Born (own own' : Owners) (r : Nat) : Prop where
  root : IsRoot own' r
  fresh : own r = none
  tables : ∀ {f r' path}, own f = some (.table r' path) → own' f = some (.table r' path)
  roots : ∀ {r'}, IsRoot own' r' → IsRoot own r' ∨ r' = r

/-- `vmm_create_page_dir` makes an address space, or gives everything back. -/
theorem createPageDir_spec {v : Vm} {own : Owners} (h : Inv v own) :
    (createPageDir v).2 = 0 ∧ Inv (createPageDir v).1 own ∨
      ∃ own', Inv (createPageDir v).1 own' ∧ Born own own' (createPageDir v).2 := by
  obtain ⟨h₁, hm₁, hc₁, -, hres₁⟩ := inv_allocFrame h
  unfold createPageDir
  dsimp only
  by_cases hz₁ : (allocFrame v).2 = 0
  · rw [if_pos hz₁]
    exact Or.inl ⟨rfl, h₁⟩
  rw [if_neg hz₁]
  have ha := hres₁.resolve_left hz₁
  generalize (allocFrame v).2 = a at *
  generalize (allocFrame v).1 = v₁ at *
  have h₁' := inv_zeroFrame h₁ ha.unowned ha.not_boot
  have ha' : Held (zeroFrame v₁ a) own a := ⟨ha.low, ha.high, ha.used, ha.unowned⟩
  obtain ⟨h₂, hm₂, hc₂, hheld₂, hres₂⟩ := inv_allocFrame h₁'
  obtain ⟨ha₂, hab⟩ := hheld₂ a ha'
  by_cases hz₂ : (allocFrame (zeroFrame v₁ a)).2 = 0
  · rw [if_pos hz₂]
    exact Or.inl ⟨rfl, inv_freeFrame h₂ ha₂⟩
  rw [if_neg hz₂]
  have hb := hres₂.resolve_left hz₂
  generalize (allocFrame (zeroFrame v₁ a)).2 = b at *
  generalize (allocFrame (zeroFrame v₁ a)).1 = v₂ at *
  have h₂' := inv_zeroFrame h₂ hb.unowned hb.not_boot
  have hb' : Held (zeroFrame v₂ b) own b := ⟨hb.low, hb.high, hb.used, hb.unowned⟩
  have ha₂' : Held (zeroFrame v₂ b) own a := ⟨ha₂.low, ha₂.high, ha₂.used, ha₂.unowned⟩
  obtain ⟨h₃, hm₃, hc₃, hheld₃, hres₃⟩ := inv_allocFrame h₂'
  obtain ⟨ha₃, hac⟩ := hheld₃ a ha₂'
  obtain ⟨hb₃, hbc⟩ := hheld₃ b hb'
  by_cases hz₃ : (allocFrame (zeroFrame v₂ b)).2 = 0
  · rw [if_pos hz₃]
    exact Or.inl ⟨rfl, inv_freeFrame (inv_freeFrame h₃ hb₃) (ha₃.freeFrame_other hb₃ hab)⟩
  rw [if_neg hz₃]
  have hc := hres₃.resolve_left hz₃
  generalize (allocFrame (zeroFrame v₂ b)).2 = c at *
  generalize (allocFrame (zeroFrame v₂ b)).1 = v₃ at *
  have hfill : Filled v₃ (fillPageDir (zeroFrame v₃ c) a b c) a b c := by
    apply fillPageDir_filled hab hac hbc
    · intro q k
      simp only [zeroFrame_mem, hm₃, hm₂]
      split_ifs <;> simp_all
    · rfl
    · rfl
    · rfl
  refine Or.inr ⟨_, inv_addSpace h₃ ha₃ hb₃ hc hab hac hbc hfill, ?_⟩
  have hne {f : Nat} {o : Owner} (hf : own f = some o) : f ≠ a ∧ f ≠ b ∧ f ≠ c := by
    refine ⟨?_, ?_, ?_⟩
    all_goals
      rintro rfl
      simp_all only [ha.unowned, hb.unowned, hc.unowned, reduceCtorEq]
  constructor
  · simp [IsRoot, addSpace, addTable, hab, hac]
  · exact ha.unowned
  · intro f r' path hf
    obtain ⟨hfa, hfb, hfc⟩ := hne hf
    simp [addSpace, addTable, hfa, hfb, hfc, hf]
  · intro r' hr'
    by_cases hra : r' = a
    · exact Or.inr hra
    · left
      by_cases hrc : r' = c
      · simp [IsRoot, addSpace, addTable, hrc] at hr'
      · by_cases hrb : r' = b
        · simp [IsRoot, addSpace, addTable, hrb, hbc] at hr'
        · simpa [IsRoot, addSpace, addTable, hra, hrb, hrc] using hr'

/-! ## Tearing down -/

@[simp] theorem freeFrame_mem (v : Vm) (f : Nat) : (freeFrame v f).mem = v.mem := by
  unfold freeFrame
  split <;> rfl

@[simp] theorem freeFrame_cow (v : Vm) (f : Nat) : (freeFrame v f).cow = v.cow := by
  unfold freeFrame
  split <;> rfl

theorem freeFrame_used {v : Vm} {f g : Nat} (h : g ≠ f) : (freeFrame v f).used g = v.used g := by
  unfold freeFrame
  split
  · simp [h]
  · rfl

/-- The places of an address space below `pml4[0]` and `pdpt[0]`, in the order in
which they are released. -/
def rowPlaces (r i : Nat) : List Owner :=
  (List.range 512).map (Owner.page [0, 0, i]) ++ [.table r [0, 0, i]]

def places (r : Nat) : List Owner :=
  (List.range 512).flatMap (rowPlaces r) ++ [.table r [0, 0], .table r [0], .table r []]

theorem places_nodup (r : Nat) : (places r).Nodup := by
  have hrow (i : Nat) : (rowPlaces r i).Nodup := by
    apply List.Nodup.append
    · apply List.nodup_range.map
      intro j j' hj
      simpa using hj
    · exact List.nodup_singleton _
    · simp [List.Disjoint]
  apply List.Nodup.append
  · apply List.nodup_flatMap.mpr
    refine ⟨fun i _ => hrow i, ?_⟩
    apply List.nodup_range.pairwise_of_forall_ne
    intro i _ i' _ hne o ho ho'
    simp only [rowPlaces, List.mem_append, List.mem_map, List.mem_singleton] at ho ho'
    rcases ho with ⟨j, -, rfl⟩ | rfl
    · rcases ho' with ⟨j', -, hj'⟩ | hj'
      · simp only [Owner.page.injEq, List.cons.injEq] at hj'
        exact hne hj'.1.2.2.1.symm
      · cases hj'
    · rcases ho' with ⟨j', -, hj'⟩ | hj'
      · cases hj'
      · simp only [Owner.table.injEq, List.cons.injEq] at hj'
        exact hne hj'.2.2.2.1
  · simp
  · intro o ho ho'
    obtain ⟨i, -, hi⟩ := List.mem_flatMap.mp ho
    simp only [rowPlaces, List.mem_append, List.mem_map, List.mem_singleton] at hi
    rcases hi with ⟨j, -, rfl⟩ | rfl
    · simp at ho'
    · simp at ho'

/-- A point of the teardown of `r`: the address space has no owner any more, and
the frames of the places still to do are as they were. -/
structure Stage (v : Vm) (own : Owners) (r : Nat) (v' : Vm) (own' : Owners)
    (todo : List Owner) : Prop where
  inv : Inv v' own'
  mem : v'.mem = v.mem
  tables : ∀ {f r' path}, own' f = some (.table r' path) ↔
    own f = some (.table r' path) ∧ r' ≠ r
  nodup : todo.Nodup
  pending : ∀ {f o}, own f = some o → o ∈ todo →
    own' f = dropSpace own r f ∧ v'.cow f = v.cow f ∧ v'.used f = true

section Teardown
variable {v v' : Vm} {own own' : Owners} {r : Nat} {o : Owner} {todo : List Owner}

theorem stage_start (h : Inv v own) (r : Nat) : Stage v own r v (dropSpace own r) (places r) :=
  ⟨h.dropSpace r, rfl, dropSpace_table, places_nodup r, fun hf _ => ⟨rfl, rfl, (h.range hf).2.2⟩⟩

/-- A place that holds nothing is passed by. -/
theorem Stage.skip (h : Stage v own r v' own' (o :: todo)) : Stage v own r v' own' todo :=
  { h with
    nodup := (List.nodup_cons.mp h.nodup).2
    pending := fun hf ho => h.pending hf (List.mem_cons_of_mem _ ho) }

theorem Stage.skips {done : List Owner} (h : Stage v own r v' own' (done ++ todo)) :
    Stage v own r v' own' todo := by
  induction done with
  | nil => exact h
  | cons o done ih => exact ih h.skip

/-- Releasing the frame of a place leaves the frames of all others alone. -/
theorem Stage.release (h : Stage v own r v' own' (o :: todo)) {f : Nat} (hf : own f = some o)
    {w : Vm} {own₁ : Owners} (hinv : Inv w own₁) (hmem : w.mem = v'.mem)
    (htables : ∀ {g r' path}, own₁ g = some (.table r' path) ↔ own' g = some (.table r' path))
    (hsame : ∀ {g}, g ≠ f → own₁ g = own' g ∧ w.cow g = v'.cow g ∧ w.used g = v'.used g) :
    Stage v own r w own₁ todo where
  inv := hinv
  mem := hmem.trans h.mem
  tables := htables.trans h.tables
  nodup := (List.nodup_cons.mp h.nodup).2
  pending := by
    intro g o' hg ho'
    have hgf : g ≠ f := by
      rintro rfl
      rw [hf] at hg
      cases hg
      exact (List.nodup_cons.mp h.nodup).1 ho'
    obtain ⟨hown, hcow, hused⟩ := h.pending hg (List.mem_cons_of_mem _ ho')
    obtain ⟨hown₁, hcow₁, hused₁⟩ := hsame hgf
    exact ⟨hown₁.trans hown, hcow₁.trans hcow, hused₁.trans hused⟩

/-- A table of the address space is released. -/
theorem Stage.freeTable {path : List Nat} (hinv : Inv v own)
    (h : Stage v own r v' own' (.table r path :: todo)) {f : Nat}
    (hf : own f = some (.table r path)) : Stage v own r (freeFrame v' f) own' todo := by
  obtain ⟨hown, -, hused⟩ := h.pending hf (by simp)
  rw [dropSpace_self hf] at hown
  have hrange := hinv.range hf
  apply h.release hf
  · exact inv_freeFrame h.inv ⟨hrange.1, hrange.2.1, hused, hown⟩
  · simp
  · exact Iff.rfl
  · intro g hg
    exact ⟨rfl, by simp, freeFrame_used hg⟩

/-- A page of the address space loses one mapper: one count less, or it is
released, since no other address space maps it. -/
theorem Stage.dropPage {path : List Nat} {d p : Nat} (hinv : Inv v own)
    (h : Stage v own r v' own' (.page path d :: todo)) (hp : own p = some (.table r path))
    (hlen : path.length = 3) (hpres : (v.mem p d).present = true) :
    ∃ own₁, Stage v own r (releasePage v' (v.mem p d).frame) own₁ todo := by
  unfold releasePage
  by_cases hlow : (v.mem p d).frame < reservedFrames
  · rw [if_pos hlow]
    exact ⟨own', h.skip⟩
  rw [if_neg hlow]
  have hpage := (hinv.leaf hp hlen hpres).resolve_left hlow
  have hmapper := hinv.mem_mappers_of_entry hp hpres
  generalize (v.mem p d).frame = f at *
  obtain ⟨hown, hcow, -⟩ := h.pending hpage (by simp)
  rw [dropSpace_page.mpr hpage] at hown
  have hsub : mappers v' own' f path d ⊆ (mappers v own f path d).erase p := by
    intro q hq
    obtain ⟨hrange, ⟨r', hq'⟩, hentry⟩ := mem_mappers.mp hq
    obtain ⟨hq', hne⟩ := h.tables.mp hq'
    rw [h.mem] at hentry
    refine Finset.mem_erase.mpr ⟨?_, mem_mappers.mpr ⟨hrange, ⟨r', hq'⟩, hentry⟩⟩
    rintro rfl
    rw [hp] at hq'
    cases hq'
    exact hne rfl
  have hspare := hinv.spare_of_lost hpage hmapper hsub
  rw [← hcow] at hspare
  by_cases hpos : f < totalFrames ∧ 0 < v'.cow f
  · rw [if_pos hpos]
    refine ⟨own', h.release hpage ?_ rfl Iff.rfl ?_⟩
    · apply h.inv.setCow
      · exact (Nat.sub_le _ _).trans (h.inv.byte f)
      · intro path' d' hpage' htwo
        rw [hown] at hpage'
        cases hpage'
        have := hspare (by omega)
        omega
    · intro g hg
      exact ⟨rfl, by simp [hg], rfl⟩
  · rw [if_neg hpos]
    have hempty : mappers v' own' f path d = ∅ := by
      rw [← Finset.card_eq_zero]
      by_contra hne
      have := hspare (Nat.pos_of_ne_zero hne)
      exact hpos ⟨(hinv.range hpage).2.1, by omega⟩
    refine ⟨_, h.release hpage (h.inv.freePage hown hempty) (by simp) ?_ ?_⟩
    · intro g r' path'
      by_cases hg : g = f
      · subst hg
        simp [hown]
      · rw [Function.update_of_ne hg]
    · intro g hg
      exact ⟨Function.update_of_ne hg _ _, by simp, freeFrame_used hg⟩

/-- The inner loop of the teardown. -/
theorem Stage.releaseEntries {i p : Nat} (hinv : Inv v own)
    (hp : own p = some (.table r [0, 0, i])) (js : List Nat) {v' : Vm} {own' : Owners}
    (h : Stage v own r v' own' (js.map (Owner.page [0, 0, i]) ++ todo)) :
    ∃ own₁, Stage v own r (js.foldl (fun v j => releaseEntry v p j) v') own₁ todo := by
  induction js generalizing v' own' with
  | nil => exact ⟨own', h⟩
  | cons j js ih =>
      rw [List.foldl_cons]
      unfold releaseEntry
      rw [h.mem]
      by_cases hpres : (v.mem p j).present = true
      · rw [if_pos hpres]
        obtain ⟨own₁, h₁⟩ := h.dropPage hinv hp rfl hpres
        exact ih h₁
      · rw [if_neg hpres]
        exact ih h.skip

/-- The outer loop of the teardown. -/
theorem Stage.releaseTables {pd : Nat} (hinv : Inv v own)
    (hpd : own pd = some (.table r [0, 0])) (is : List Nat) {v' : Vm} {own' : Owners}
    (h : Stage v own r v' own' (is.flatMap (rowPlaces r) ++ todo)) :
    ∃ own₁, Stage v own r (is.foldl (fun v i => releaseTable v pd i) v') own₁ todo := by
  induction is generalizing v' own' with
  | nil => exact ⟨own', h⟩
  | cons i is ih =>
      rw [List.foldl_cons]
      rw [List.flatMap_cons, List.append_assoc] at h
      unfold releaseTable
      dsimp only
      rw [h.mem]
      by_cases hskip : (!(v.mem pd i).present || (v.mem pd i).large) = true
      · rw [if_pos hskip]
        exact ih h.skips
      · rw [if_neg hskip]
        simp only [Bool.or_eq_true, Bool.not_eq_true', not_or, Bool.not_eq_false,
          Bool.not_eq_true] at hskip
        have hp : own (v.mem pd i).frame = some (.table r [0, 0, i]) := by
          rcases hinv.child hpd (by simp) hskip.1 hskip.2 with hp | ⟨-, hbad, -⟩
          · exact hp
          · cases hbad
        rw [rowPlaces, List.append_assoc] at h
        obtain ⟨own₁, h₁⟩ := h.releaseEntries hinv hp
        exact ih (h₁.freeTable hinv hp)

end Teardown

/-- An address space has gone, the others are as they were. -/
structure Gone (own own' : Owners) (r : Nat) : Prop where
  tables : ∀ {f r' path}, own f = some (.table r' path) → r' ≠ r → own' f = some (.table r' path)
  roots : ∀ {r'}, IsRoot own' r' → IsRoot own r' ∧ r' ≠ r

/-- `vmm_free_user_memory` has nothing left to do. -/
theorem freeUserMemory_stage {v : Vm} {own : Owners} (h : Inv v own) {r : Nat}
    (hr : IsRoot own r) : ∃ own', Stage v own r (freeUserMemory v r) own' [] := by
  obtain ⟨hpdpt, hpd⟩ := h.first_tables hr
  have hspine := h.spine (Or.inl hr)
  have hspine' := h.spine (Or.inr hpdpt)
  unfold freeUserMemory
  rw [if_neg (h.root_pos hr)]
  simp only [hspine, hspine', if_true]
  obtain ⟨own₁, h₁⟩ := (stage_start h r).releaseTables h hpd
  exact ⟨own₁, ((h₁.freeTable h hpd).freeTable h hpdpt).freeTable h hr⟩

/-- `vmm_free_user_memory` takes an address space away. -/
theorem freeUserMemory_spec {v : Vm} {own : Owners} (h : Inv v own) {r : Nat} (hr : IsRoot own r) :
    ∃ own', Inv (freeUserMemory v r) own' ∧ Gone own own' r := by
  obtain ⟨own', hend⟩ := freeUserMemory_stage h hr
  exact ⟨own', hend.inv, fun hf hne => hend.tables.mpr ⟨hf, hne⟩, hend.tables.mp⟩

end OriaOS.Vmm
