import OriaOS.Vmm.Leaves

/-!
# Trees of page tables

The tables of the address spaces as trees: every table has its place in one tree, and the
entries of a table lead to the tables below it. What the leaves map is left open; a page may
be mapped at any frame.
-/

namespace OriaOS.Vmm

variable {f k pd pt q r r' va : Nat}

/-- The place of a table: the root, the two tables below it, or the page table of an entry
of the page directory. -/
inductive Level where
  | pml4
  | pdpt
  | pd
  | pt (k : Nat)
deriving DecidableEq

/-- The tables, each with its root and its place. -/
abbrev Tabs := Nat → Option (Nat × Level)

structure Tree (v : Vm) (tab : Tabs) : Prop where
  frame : ∀ ⦃f x⦄, tab f = some x → reservedFrames ≤ f ∧ f < totalFrames ∧ v.used f = true
  unique : ∀ ⦃f g x⦄, tab f = some x → tab g = some x → f = g
  self : ∀ ⦃f r⦄, tab f = some (r, .pml4) → f = r
  root : ∀ ⦃f r l⦄, tab f = some (r, l) → tab r = some (r, .pml4)
  top : ∀ ⦃r⦄, tab r = some (r, .pml4) → ∃ b, v.mem r 0 = PTE.userRW b ∧ tab b = some (r, .pdpt)
  topRest : ∀ ⦃r i⦄, tab r = some (r, .pml4) → i ≠ 0 → i < 512 → (v.mem r i).present = false
  mid : ∀ ⦃p r⦄, tab p = some (r, .pdpt) →
    ∃ c, v.mem p 0 = PTE.userRW c ∧ tab c = some (r, .pd)
  midBoot : ∀ ⦃p r i⦄, tab p = some (r, .pdpt) → i ≠ 0 → i < 4 →
    v.mem p i = PTE.kernelRW (i + 3)
  midRest : ∀ ⦃p r i⦄, tab p = some (r, .pdpt) → 4 ≤ i → i < 512 →
    (v.mem p i).present = false
  large : ∀ ⦃p r k⦄, tab p = some (r, .pd) → k < 512 →
    ((v.mem p k).large = true ↔ k ∈ kernelPages)
  low : ∀ ⦃p r k⦄, tab p = some (r, .pd) → k < 512 → k ∉ kernelPages →
    (v.mem p k).present = true → tab (v.mem p k).frame = some (r, .pt k)
  linked : ∀ ⦃f r k⦄, tab f = some (r, .pt k) → k < 512 ∧ k ∉ kernelPages ∧
    ∃ p, tab p = some (r, .pd) ∧ (v.mem p k).present = true ∧ (v.mem p k).frame = f
  boot : ∀ ⦃f i⦄, IsBootPd f → i < 512 →
    v.mem f i = PTE.kernelLarge ((f - 3) * 262144 + i * 512)

namespace Tree

variable {v v' : Vm} {tab : Tabs}

theorem ne_of_level {g : Nat} {l l' : Level} (hf : tab f = some (r, l))
    (hg : tab g = some (r', l')) (hl : l ≠ l') : f ≠ g := by
  rintro rfl
  rw [hf] at hg
  cases hg
  exact hl rfl

theorem ne_zero (h : Tree v tab) {x : Nat × Level} (hf : tab f = some x) : f ≠ 0 := by
  rintro rfl
  exact absurd (h.frame hf).1 (by decide)

theorem not_boot (h : Tree v tab) {x : Nat × Level} (hf : tab f = some x) : ¬ IsBootPd f := by
  intro hb
  exact absurd ((h.frame hf).1.trans hb.2) (by decide)

theorem none_of_free (h : Tree v tab) (hf : f ∈ freeFrames v) : tab f = none := by
  cases htab : tab f with
  | none => rfl
  | some x =>
      have hused := (h.frame htab).2.2
      rw [(mem_freeFrames.mp hf).2] at hused
      cases hused

/-- What the tree says is about the upper tables and the boot directories. -/
theorem of_same (h : Tree v tab)
    (hmem : ∀ q r l, tab q = some (r, l) → (∀ k, l ≠ .pt k) → v'.mem q = v.mem q)
    (hboot : ∀ q, IsBootPd q → v'.mem q = v.mem q)
    (hused : ∀ q x, tab q = some x → v'.used q = true) : Tree v' tab := by
  constructor
  case frame =>
    intro f x hf
    exact ⟨(h.frame hf).1, (h.frame hf).2.1, hused f x hf⟩
  case unique => exact h.unique
  case self => exact h.self
  case root => exact h.root
  case top =>
    intro r hr
    rw [hmem r r .pml4 hr (by simp)]
    exact h.top hr
  case topRest =>
    intro r i hr
    rw [hmem r r .pml4 hr (by simp)]
    exact h.topRest hr
  case mid =>
    intro p r hp
    rw [hmem p r .pdpt hp (by simp)]
    exact h.mid hp
  case midBoot =>
    intro p r i hp
    rw [hmem p r .pdpt hp (by simp)]
    exact h.midBoot hp
  case midRest =>
    intro p r i hp
    rw [hmem p r .pdpt hp (by simp)]
    exact h.midRest hp
  case large =>
    intro p r k hp
    rw [hmem p r .pd hp (by simp)]
    exact h.large hp
  case low =>
    intro p r k hp
    rw [hmem p r .pd hp (by simp)]
    exact h.low hp
  case linked =>
    intro f r k hf
    obtain ⟨hk, hplain, p, hp, hpres, hframe⟩ := h.linked hf
    refine ⟨hk, hplain, p, hp, ?_⟩
    rw [hmem p r .pd hp (by simp)]
    exact ⟨hpres, hframe⟩
  case boot =>
    intro f i hf
    rw [hboot f hf]
    exact h.boot hf

/-- A leaf is set. -/
theorem setLeaf (h : Tree v tab) (hpt : tab pt = some (r, .pt k)) (d : Nat) (e : PTE) :
    Tree (setEntry v pt d e) tab := by
  apply h.of_same
  · intro q r' l hq hl
    funext i
    exact setEntry_other fun hc => hl k (by
      rw [hc.1, hpt] at hq
      cases hq
      rfl)
  · intro q hq
    funext i
    exact setEntry_other fun hc => h.not_boot hpt (hc.1 ▸ hq)
  · exact fun q x hq => (h.frame hq).2.2

/-! ## Where an address leads -/

/-- What `vmm_get_phys` finds below a page directory. -/
def lowPhys (v : Vm) (pd va : Nat) : Nat :=
  let e := v.mem pd (pdIdx va)
  if !e.present then 0
  else if e.large then e.frame / 512 * 512 + ptIdx va
  else
    let e := v.mem e.frame (ptIdx va)
    if e.present then e.frame else 0

/-- What it finds outside the first gigabyte. -/
def highPhys (va : Nat) : Nat :=
  if pml4Idx va = 0 ∧ pdptIdx va < 4 then
    (pdptIdx va * 262144 + pdIdx va * 512) / 512 * 512 + ptIdx va
  else 0

/-- In user space the walk comes to the page directory of the root. -/
theorem pdOf_eq (h : Tree v tab) (hpd : tab pd = some (r, .pd)) (hva : UserVa va) :
    pdOf v r va = some pd := by
  obtain ⟨b, htop, hb⟩ := h.top (h.root hpd)
  obtain ⟨c, hmid, hc⟩ := h.mid hb
  obtain rfl := h.unique hc hpd
  have hpdpt : tableAt v r 0 = some b := by
    rw [tableAt, htop]
    rfl
  rw [pdOf, hva.1, hpdpt, Option.bind_some, hva.2, tableAt, hmid]
  rfl

theorem ptOf_eq (h : Tree v tab) (hpd : tab pd = some (r, .pd)) (hva : UserVa va)
    (hplain : pdIdx va ∉ kernelPages) : ptOf v r va = tableAt v pd (pdIdx va) := by
  have h512 : pdIdx va < 512 := Nat.mod_lt _ (by decide)
  rw [ptOf, h.pdOf_eq hpd hva, Option.bind_some, if_neg (mt (h.large hpd h512).mp hplain)]

theorem getPhys_eq (h : Tree v tab) (hpd : tab pd = some (r, .pd)) (va : Nat) :
    getPhys v r va =
      if pml4Idx va = 0 ∧ pdptIdx va = 0 then lowPhys v pd va else highPhys va := by
  have hr := h.root hpd
  have hnz := h.ne_zero hr
  obtain ⟨b, htop, hb⟩ := h.top hr
  have h512 : pml4Idx va < 512 := Nat.mod_lt _ (by decide)
  have h512' : pdptIdx va < 512 := Nat.mod_lt _ (by decide)
  rw [getPhys, if_neg hnz]
  by_cases hi : pml4Idx va = 0
  · have hpdpt : tableAt v r (pml4Idx va) = some b := by
      rw [hi, tableAt, htop]
      rfl
    by_cases hj : pdptIdx va = 0
    · rw [h.pdOf_eq hpd ⟨hi, hj⟩, if_pos ⟨hi, hj⟩]
      rfl
    · rw [if_neg fun hc => hj hc.2, highPhys]
      by_cases hj4 : pdptIdx va < 4
      · have hpdOf : pdOf v r va = some (pdptIdx va + 3) := by
          rw [pdOf, hpdpt, Option.bind_some, tableAt, h.midBoot hb hj hj4]
          rfl
        have hboot : IsBootPd (pdptIdx va + 3) := by
          unfold IsBootPd
          omega
        have hentry := h.boot hboot (i := pdIdx va) (Nat.mod_lt _ (by decide))
        rw [Nat.add_sub_cancel] at hentry
        rw [hpdOf, if_pos ⟨hi, hj4⟩]
        simp only [hentry, PTE.kernelLarge]
        rfl
      · have hpdOf : pdOf v r va = none := by
          rw [pdOf, hpdpt, Option.bind_some, tableAt,
            h.midRest hb (Nat.le_of_not_lt hj4) h512']
          rfl
        rw [hpdOf, if_neg fun hc => hj4 hc.2]
  · have hpdOf : pdOf v r va = none := by
      rw [pdOf, tableAt, h.topRest hr hi h512]
      rfl
    rw [hpdOf, if_neg fun hc => hi hc.1, highPhys, if_neg fun hc => hi hc.1]

/-- Every root has its page directory. -/
theorem exists_pd (h : Tree v tab) (hr : tab r = some (r, .pml4)) :
    ∃ pd, tab pd = some (r, .pd) := by
  obtain ⟨b, -, hb⟩ := h.top hr
  obtain ⟨c, -, hc⟩ := h.mid hb
  exact ⟨c, hc⟩

/-- Two states with the same trees show the same where the page directories do. -/
theorem getPhys_congr {tab' : Tabs} (h : Tree v tab) (h' : Tree v' tab')
    (hpd : tab pd = some (r, .pd)) (hpd' : tab' pd = some (r, .pd))
    (hlow : pml4Idx va = 0 → pdptIdx va = 0 → lowPhys v' pd va = lowPhys v pd va) :
    getPhys v' r va = getPhys v r va := by
  rw [h.getPhys_eq hpd, h'.getPhys_eq hpd']
  split
  · next hva => exact hlow hva.1 hva.2
  · rfl

/-- Two states in which the tables of one tree have the same entries. -/
theorem getPhys_of_tables {tab' : Tabs} (h : Tree v tab) (h' : Tree v' tab')
    (hkeep : ∀ q x, tab q = some x → tab' q = some x ∧ v'.mem q = v.mem q)
    (hr : tab r = some (r, .pml4)) (va : Nat) : getPhys v' r va = getPhys v r va := by
  have h512 : pdIdx va < 512 := Nat.mod_lt _ (by decide)
  obtain ⟨pd, hpd⟩ := h.exists_pd hr
  refine h.getPhys_congr h' hpd (hkeep pd _ hpd).1 fun _ _ => ?_
  simp only [lowPhys, (hkeep pd _ hpd).2]
  by_cases hpres : (v.mem pd (pdIdx va)).present = true
  · by_cases hl : (v.mem pd (pdIdx va)).large = true
    · simp only [hpres, hl, if_true]
    · simp only [(hkeep _ _ (h.low hpd h512 (mt (h.large hpd h512).mpr hl) hpres)).2]
  · simp only [hpres, Bool.not_false, if_true]

/-! ## Setting a leaf -/

instance (va : Nat) : Decidable (UserVa va) := inferInstanceAs (Decidable (_ ∧ _))

/-- The frame that an entry of a page table gives. -/
def leafPhys (e : PTE) : Nat := if e.present then e.frame else 0

theorem lowPhys_setLeaf (h : Tree v tab) {d : Nat} (hpt : tab pt = some (r, .pt k)) (e : PTE)
    (hpd : tab pd = some (r', .pd)) (va : Nat) :
    lowPhys (setEntry v pt d e) pd va =
      if r' = r ∧ pdIdx va = k ∧ ptIdx va = d then leafPhys e else lowPhys v pd va := by
  have h512 : pdIdx va < 512 := Nat.mod_lt _ (by decide)
  have hne : pd ≠ pt := ne_of_level hpd hpt (by simp)
  have hentry : (setEntry v pt d e).mem pd (pdIdx va) = v.mem pd (pdIdx va) :=
    setEntry_other fun hc => hne hc.1
  obtain ⟨hk512, hplain, p, hp, hpres, hframe⟩ := h.linked hpt
  by_cases hat : r' = r ∧ pdIdx va = k
  · obtain ⟨rfl, rfl⟩ := hat
    obtain rfl := h.unique hp hpd
    have hsmall : ¬ (v.mem p (pdIdx va)).large = true := mt (h.large hp h512).mp hplain
    simp only [lowPhys, hentry, hpres, hsmall, hframe, Bool.not_true, Bool.false_eq_true, if_false,
      true_and]
    by_cases hd : ptIdx va = d
    · rw [if_pos hd, hd, setEntry_same]
      rfl
    · rw [if_neg hd, setEntry_other fun hc => hd hc.2]
  · rw [if_neg fun hc => hat ⟨hc.1, hc.2.1⟩]
    simp only [lowPhys, hentry]
    by_cases hpres' : (v.mem pd (pdIdx va)).present = true
    · by_cases hl : (v.mem pd (pdIdx va)).large = true
      · simp only [hpres', hl, if_true]
      · have hown := h.low hpd h512 (mt (h.large hpd h512).mpr hl) hpres'
        have hother : (v.mem pd (pdIdx va)).frame ≠ pt := by
          intro hc
          rw [hc, hpt] at hown
          cases hown
          exact hat ⟨rfl, rfl⟩
        simp only [setEntry_other (v := v) (e := e) (d := d) fun hc => hother hc.1]
    · simp only [hpres', Bool.not_false, if_true]

/-- Setting a leaf changes the translation of its page and of no other. -/
theorem getPhys_setLeaf (h : Tree v tab) {d : Nat} (hpt : tab pt = some (r, .pt k)) (e : PTE)
    (hr' : tab r' = some (r', .pml4)) (va : Nat) :
    getPhys (setEntry v pt d e) r' va =
      if r' = r ∧ UserVa va ∧ pdIdx va = k ∧ ptIdx va = d then leafPhys e
      else getPhys v r' va := by
  obtain ⟨pd, hpd⟩ := h.exists_pd hr'
  rw [(h.setLeaf hpt d e).getPhys_eq hpd, h.getPhys_eq hpd, h.lowPhys_setLeaf hpt e hpd]
  by_cases hva : pml4Idx va = 0 ∧ pdptIdx va = 0
  · have huser : UserVa va := hva
    simp only [if_pos hva, huser, true_and]
  · rw [if_neg hva, if_neg fun hc => hva hc.2.1, if_neg hva]

/-! ## A new page table -/

/-- Memory after a page table has been added at entry `k` of a page directory. -/
def addPt (v : Vm) (f pd k : Nat) : Vm := setEntry (takeZeroed v f) pd k (PTE.userRW f)

theorem addPt_mem (v : Vm) (f pd k q i : Nat) : (addPt v f pd k).mem q i =
    if q = pd ∧ i = k then PTE.userRW f else if q = f then PTE.zero else v.mem q i := by
  simp [addPt, takeZeroed]

section AddPt
variable {f pd r k : Nat}

theorem newTable (h : Tree v tab) (hpd : tab pd = some (r, .pd)) (hk : k < 512)
    (hplain : k ∉ kernelPages) (hnone : (v.mem pd k).present = false) (hf : f ∈ freeFrames v) :
    Tree (addPt v f pd k) (Function.update tab f (some (r, .pt k))) := by
  have hunowned := h.none_of_free hf
  obtain ⟨⟨hlow, hhigh⟩, hfree⟩ := mem_freeFrames.mp hf
  have hne {q : Nat} {x : Nat × Level} (hq : tab q = some x) : q ≠ f := by
    rintro rfl
    rw [hunowned] at hq
    cases hq
  -- Nothing had this place before.
  have hvacant (q : Nat) : tab q ≠ some (r, .pt k) := by
    intro hq
    obtain ⟨-, -, p, hp, hpres, -⟩ := h.linked hq
    rw [h.unique hp hpd, hnone] at hpres
    cases hpres
  have hold {q : Nat} {x : Nat × Level} (hq : tab q = some x) :
      Function.update tab f (some (r, .pt k)) q = some x := by
    rw [Function.update_of_ne (hne hq), hq]
  have hback {q : Nat} {x : Nat × Level} (hq : Function.update tab f (some (r, .pt k)) q = some x)
      (hx : x.2 ≠ .pt k) : tab q = some x := by
    by_cases hqf : q = f
    · subst hqf
      rw [Function.update_self] at hq
      cases hq
      exact absurd rfl hx
    · rwa [Function.update_of_ne hqf] at hq
  have hmem {q i : Nat} {x : Nat × Level} (hq : tab q = some x) (hqi : ¬ (q = pd ∧ i = k)) :
      (addPt v f pd k).mem q i = v.mem q i := by
    rw [addPt_mem, if_neg hqi, if_neg (hne hq)]
  have hupper {q i r' : Nat} {l : Level} (hq : tab q = some (r', l)) (hl : l ≠ .pd) :
      (addPt v f pd k).mem q i = v.mem q i :=
    hmem hq fun hc => ne_of_level hq hpd hl hc.1
  have hself : (addPt v f pd k).mem pd k = PTE.userRW f := by
    rw [addPt_mem, if_pos ⟨rfl, rfl⟩]
  constructor
  case frame =>
    intro q x hq
    by_cases hqf : q = f
    · subst hqf
      refine ⟨hlow, hhigh, ?_⟩
      simp [addPt, takeZeroed, setEntry, zeroFrame]
    · rw [Function.update_of_ne hqf] at hq
      obtain ⟨hl, hh, hu⟩ := h.frame hq
      refine ⟨hl, hh, ?_⟩
      simpa [addPt, takeZeroed, setEntry, zeroFrame, hqf] using hu
  case unique =>
    intro q g x hq hg
    by_cases hqf : q = f
    · by_cases hgf : g = f
      · rw [hqf, hgf]
      · rw [hqf, Function.update_self] at hq
        rw [Function.update_of_ne hgf, ← hq] at hg
        exact absurd hg (hvacant g)
    · rw [Function.update_of_ne hqf] at hq
      by_cases hgf : g = f
      · rw [hgf, Function.update_self] at hg
        rw [← hg] at hq
        exact absurd hq (hvacant q)
      · rw [Function.update_of_ne hgf] at hg
        exact h.unique hq hg
  case self =>
    intro q r' hq
    exact h.self (hback hq (by simp))
  case root =>
    intro q r' l hq
    by_cases hqf : q = f
    · rw [hqf, Function.update_self] at hq
      cases hq
      exact hold (h.root hpd)
    · rw [Function.update_of_ne hqf] at hq
      exact hold (h.root hq)
  case top =>
    intro r' hr'
    have hr := hback hr' (by simp)
    obtain ⟨b, hb, hb'⟩ := h.top hr
    exact ⟨b, (hupper hr (by simp)).trans hb, hold hb'⟩
  case topRest =>
    intro r' i hr' hi hi512
    have hr := hback hr' (by simp)
    rw [hupper hr (by simp)]
    exact h.topRest hr hi hi512
  case mid =>
    intro p r' hp
    have hp' := hback hp (by simp)
    obtain ⟨c, hc, hc'⟩ := h.mid hp'
    exact ⟨c, (hupper hp' (by simp)).trans hc, hold hc'⟩
  case midBoot =>
    intro p r' i hp hi hi4
    have hp' := hback hp (by simp)
    rw [hupper hp' (by simp)]
    exact h.midBoot hp' hi hi4
  case midRest =>
    intro p r' i hp hi hi512
    have hp' := hback hp (by simp)
    rw [hupper hp' (by simp)]
    exact h.midRest hp' hi hi512
  case large =>
    intro p r' i hp hi
    have hp' := hback hp (by simp)
    by_cases hat : p = pd ∧ i = k
    · rw [hat.1, hat.2, hself]
      exact iff_of_false (by simp [PTE.userRW]) hplain
    · rw [hmem hp' hat]
      exact h.large hp' hi
  case low =>
    intro p r' i hp hi hnk hpres
    have hp' := hback hp (by simp)
    by_cases hat : p = pd ∧ i = k
    · obtain ⟨rfl, rfl⟩ := hat
      rw [hpd] at hp'
      cases hp'
      rw [hself]
      exact Function.update_self ..
    · rw [hmem hp' hat] at hpres ⊢
      exact hold (h.low hp' hi hnk hpres)
  case linked =>
    intro q r' i hq
    by_cases hqf : q = f
    · rw [hqf, Function.update_self] at hq
      cases hq
      refine ⟨hk, hplain, pd, hold hpd, ?_⟩
      rw [hself, hqf]
      exact ⟨rfl, rfl⟩
    · rw [Function.update_of_ne hqf] at hq
      obtain ⟨hi, hnk, p, hp, hpres, hframe⟩ := h.linked hq
      have hat : ¬ (p = pd ∧ i = k) := by
        rintro ⟨rfl, rfl⟩
        rw [hnone] at hpres
        cases hpres
      refine ⟨hi, hnk, p, hold hp, ?_⟩
      rw [hmem hp hat]
      exact ⟨hpres, hframe⟩
  case boot =>
    intro q i hq hi
    have hqf : q ≠ f := by
      rintro rfl
      exact absurd (hlow.trans hq.2) (by decide)
    have hqp : ¬ (q = pd ∧ i = k) := fun hc => h.not_boot hpd (hc.1 ▸ hq)
    rw [addPt_mem, if_neg hqp, if_neg hqf]
    exact h.boot hq hi

/-- A new page table is empty, so nothing is translated otherwise. -/
theorem getPhys_newTable (h : Tree v tab) (hpd : tab pd = some (r, .pd)) (hk : k < 512)
    (hplain : k ∉ kernelPages) (hnone : (v.mem pd k).present = false) (hf : f ∈ freeFrames v)
    (hr' : tab r' = some (r', .pml4)) (va : Nat) :
    getPhys (addPt v f pd k) r' va = getPhys v r' va := by
  have hunowned := h.none_of_free hf
  have hne {q : Nat} {x : Nat × Level} (hq : tab q = some x) : q ≠ f := by
    rintro rfl
    rw [hunowned] at hq
    cases hq
  obtain ⟨pd', hpd'⟩ := h.exists_pd hr'
  refine h.getPhys_congr (h.newTable hpd hk hplain hnone hf) hpd'
    (by rw [Function.update_of_ne (hne hpd'), hpd']) fun _ _ => ?_
  have h512 : pdIdx va < 512 := Nat.mod_lt _ (by decide)
  by_cases hat : pd' = pd ∧ pdIdx va = k
  · obtain ⟨rfl, rfl⟩ := hat
    have hnew : (addPt v f pd' (pdIdx va)).mem pd' (pdIdx va) = PTE.userRW f := by
      rw [addPt_mem, if_pos ⟨rfl, rfl⟩]
    have hzero : (addPt v f pd' (pdIdx va)).mem f (ptIdx va) = PTE.zero := by
      rw [addPt_mem, if_neg fun hc => hne hpd' hc.1.symm, if_pos rfl]
    simp [lowPhys, hnew, hnone, PTE.userRW, hzero, PTE.zero]
  · have hentry : (addPt v f pd k).mem pd' (pdIdx va) = v.mem pd' (pdIdx va) := by
      rw [addPt_mem, if_neg hat, if_neg (hne hpd')]
    simp only [lowPhys, hentry]
    by_cases hpres : (v.mem pd' (pdIdx va)).present = true
    · by_cases hl : (v.mem pd' (pdIdx va)).large = true
      · simp only [hpres, hl, if_true]
      · have hown := h.low hpd' h512 (mt (h.large hpd' h512).mpr hl) hpres
        have hleaf : (addPt v f pd k).mem (v.mem pd' (pdIdx va)).frame (ptIdx va)
            = v.mem (v.mem pd' (pdIdx va)).frame (ptIdx va) := by
          have hother : ¬ ((v.mem pd' (pdIdx va)).frame = pd ∧ ptIdx va = k) :=
            fun hc => ne_of_level hown hpd (by simp) hc.1
          rw [addPt_mem, if_neg hother, if_neg (hne hown)]
        rw [hleaf]
    · simp only [hpres, Bool.not_false, if_true]

end AddPt

/-! ## vmm_map_page and vmm_unmap_page -/

section MapPage
variable {r pd va : Nat} {e : PTE}

theorem nextTable_present {p i : Nat} (h : (v.mem p i).present = true) :
    nextTable v p i = (v, some (v.mem p i).frame) := by
  rw [nextTable, if_pos h]

/-- In user space the two upper tables are always there. -/
theorem mapPage_eq (h : Tree v tab) (hpd : tab pd = some (r, .pd)) (hva : UserVa va) (e : PTE) :
    mapPage v r va e =
      if (v.mem pd (pdIdx va)).large then v
      else
        match nextTable v pd (pdIdx va) with
        | (v, none) => v
        | (v, some pt) => setEntry v pt (ptIdx va) e := by
  obtain ⟨b, htop, hb⟩ := h.top (h.root hpd)
  obtain ⟨c, hmid, hc⟩ := h.mid hb
  obtain rfl := h.unique hc hpd
  have h₁ : nextTable v r 0 = (v, some b) := by
    rw [nextTable_present (by rw [htop]; rfl), htop]
    rfl
  have h₂ : nextTable v b 0 = (v, some c) := by
    rw [nextTable_present (by rw [hmid]; rfl), hmid]
    rfl
  unfold mapPage
  rw [hva.1, hva.2]
  rcases hlast : nextTable v c (pdIdx va) with ⟨w, _ | pt⟩
  · simp only [h₁, h₂, hlast]
  · simp only [h₁, h₂, hlast]

/-- Outside the 2 MB pages the leaf is set, in a new page table if there was none; without a
free frame for the table nothing happens. -/
theorem mapPage_cases (h : Tree v tab) (hpd : tab pd = some (r, .pd)) (hva : UserVa va)
    (hplain : pdIdx va ∉ kernelPages) (e : PTE) :
    ((v.mem pd (pdIdx va)).present = true ∧
        tab (v.mem pd (pdIdx va)).frame = some (r, .pt (pdIdx va)) ∧
        mapPage v r va e = setEntry v (v.mem pd (pdIdx va)).frame (ptIdx va) e) ∨
      (v.mem pd (pdIdx va)).present = false ∧
        (freeFrames v = ∅ ∧ mapPage v r va e = v ∨
          ∃ f ∈ freeFrames v,
            mapPage v r va e = setEntry (addPt v f pd (pdIdx va)) f (ptIdx va) e) := by
  have h512 : pdIdx va < 512 := Nat.mod_lt _ (by decide)
  rw [h.mapPage_eq hpd hva, if_neg (mt (h.large hpd h512).mp hplain)]
  by_cases hpres : (v.mem pd (pdIdx va)).present = true
  · left
    refine ⟨hpres, h.low hpd h512 hplain hpres, ?_⟩
    rw [nextTable_present hpres]
  · right
    refine ⟨Bool.eq_false_of_not_eq_true hpres, ?_⟩
    rcases allocFrame_eq v with ⟨heq, hempty⟩ | ⟨f, hf, heq⟩
    · left
      refine ⟨hempty, ?_⟩
      rw [nextTable, if_neg hpres, heq]
      rfl
    · right
      have hnz := free_ne_zero hf
      refine ⟨f, hf, ?_⟩
      rw [nextTable, if_neg hpres, heq]
      dsimp only
      rw [if_neg hnz]
      rfl

end MapPage

end Tree

/-- The trees stay, and a new table lies in a frame that was free. -/
structure Extends (v : Vm) (tab : Tabs) (v' : Vm) (tab' : Tabs) : Prop where
  tree : Tree v' tab'
  keep : ∀ ⦃f x⦄, tab f = some x → tab' f = some x
  fresh : ∀ ⦃f x⦄, tab' f = some x → tab f = some x ∨ f ∈ freeFrames v
  used : ∀ ⦃f⦄, v.used f = true → v'.used f = true

namespace Tree

variable {v v' : Vm} {tab : Tabs}

theorem extends_refl (h : Tree v tab) : Extends v tab v tab :=
  ⟨h, fun _ _ => id, fun _ _ => Or.inl, fun _ => id⟩

theorem used_addPt {f pd k g : Nat} (hg : v.used g = true) : (addPt v f pd k).used g = true := by
  by_cases hgf : g = f
  · simp [addPt, takeZeroed, setEntry, zeroFrame, hgf]
  · simpa [addPt, takeZeroed, setEntry, zeroFrame, hgf] using hg

/-- What mapping a page of user space does, with a table or a frame for it at hand: its own
translation is the new one, the others stay. -/
theorem mapPage_spec (h : Tree v tab) (hr : tab r = some (r, .pml4)) (hva : UserVa va)
    (hplain : pdIdx va ∉ kernelPages) (e : PTE) (hroom : (ptOf v r va).isSome ∨ freeFrames v ≠ ∅) :
    ∃ tab', Extends v tab (mapPage v r va e) tab' ∧
      (∀ f, tab' f = some (f, .pml4) → tab f = some (f, .pml4)) ∧
      ∀ r' va', tab r' = some (r', .pml4) → getPhys (mapPage v r va e) r' va' =
        if r' = r ∧ UserVa va' ∧ pdIdx va' = pdIdx va ∧ ptIdx va' = ptIdx va then leafPhys e
        else getPhys v r' va' := by
  have h512 : pdIdx va < 512 := Nat.mod_lt _ (by decide)
  obtain ⟨pd, hpd⟩ := h.exists_pd hr
  rcases h.mapPage_cases hpd hva hplain e with ⟨-, hpt, heq⟩ |
    ⟨hnone, ⟨hempty, -⟩ | ⟨f, hf, heq⟩⟩
  · rw [heq]
    refine ⟨tab, { h.extends_refl with tree := h.setLeaf hpt _ e }, fun f => id, ?_⟩
    exact fun r' va' hr' => h.getPhys_setLeaf hpt e hr' va'
  · -- There is neither a table nor a frame.
    obtain ⟨pt, hpt⟩ := Option.isSome_iff_exists.mp (hroom.resolve_right (not_not_intro hempty))
    rw [h.ptOf_eq hpd hva hplain, tableAt, hnone] at hpt
    cases hpt
  · have hnew := h.newTable hpd h512 hplain hnone hf
    have hne {q : Nat} {x : Nat × Level} (hq : tab q = some x) : q ≠ f := by
      rintro rfl
      rw [h.none_of_free hf] at hq
      cases hq
    have hf' : Function.update tab f (some (r, Level.pt (pdIdx va))) f
        = some (r, .pt (pdIdx va)) := Function.update_self ..
    have hkeep {q : Nat} {x : Nat × Level} (hq : tab q = some x) :
        Function.update tab f (some (r, Level.pt (pdIdx va))) q = some x := by
      rw [Function.update_of_ne (hne hq), hq]
    rw [heq]
    refine ⟨_, ⟨hnew.setLeaf hf' _ e, fun q x hq => hkeep hq, ?_, ?_⟩, ?_, ?_⟩
    · intro q x hq
      by_cases hqf : q = f
      · exact Or.inr (hqf ▸ hf)
      · rw [Function.update_of_ne hqf] at hq
        exact Or.inl hq
    · exact fun g hg => @used_addPt v f pd (pdIdx va) g hg
    · intro q hq
      by_cases hqf : q = f
      · rw [hqf, Function.update_self] at hq
        cases hq
      · rwa [Function.update_of_ne hqf] at hq
    · intro r' va' hr'
      rw [hnew.getPhys_setLeaf hf' e (hkeep hr') va',
        h.getPhys_newTable hpd h512 hplain hnone hf hr']

/-- Unmapping leaves zero at the page. -/
theorem unmapPage_spec (h : Tree v tab) (hr : tab r = some (r, .pml4)) (hva : UserVa va)
    (hplain : pdIdx va ∉ kernelPages) :
    Extends v tab (unmapPage v r va) tab ∧
      ∀ r' va', tab r' = some (r', .pml4) → getPhys (unmapPage v r va) r' va' =
        if r' = r ∧ UserVa va' ∧ pdIdx va' = pdIdx va ∧ ptIdx va' = ptIdx va then 0
        else getPhys v r' va' := by
  have h512 : pdIdx va < 512 := Nat.mod_lt _ (by decide)
  obtain ⟨pd, hpd⟩ := h.exists_pd hr
  have hnz := h.ne_zero hr
  rw [unmapPage, if_neg hnz, h.ptOf_eq hpd hva hplain, tableAt]
  by_cases hpres : (v.mem pd (pdIdx va)).present = true
  · have hpt := h.low hpd h512 hplain hpres
    rw [if_pos hpres]
    refine ⟨{ h.extends_refl with tree := h.setLeaf hpt _ _ }, ?_⟩
    exact fun r' va' hr' => h.getPhys_setLeaf hpt PTE.zero hr' va'
  · rw [if_neg hpres]
    refine ⟨h.extends_refl, ?_⟩
    intro r' va' hr'
    by_cases hsame : r' = r ∧ UserVa va' ∧ pdIdx va' = pdIdx va ∧ ptIdx va' = ptIdx va
    · rw [if_pos hsame]
      obtain ⟨rfl, hva', hd, -⟩ := hsame
      have hfirst : pml4Idx va' = 0 ∧ pdptIdx va' = 0 := hva'
      dsimp only
      rw [h.getPhys_eq hpd, if_pos hfirst, lowPhys, hd]
      simp [hpres]
    · rw [if_neg hsame]

/-! ## New address spaces -/

section NewSpace
variable {a b c : Nat}

/-- The three tables of a new address space. -/
def addRoot (tab : Tabs) (a b c : Nat) : Tabs := fun f =>
  if f = a then some (a, .pml4)
  else if f = b then some (a, .pdpt)
  else if f = c then some (a, .pd)
  else tab f

theorem newSpace_mem (hab : a ≠ b) (hac : a ≠ c) (hbc : b ≠ c) (q k : Nat) :
    (fillPageDir (takeZeroed (takeZeroed (takeZeroed v a) b) c) a b c).mem q k =
      if q = a then if k = 0 then PTE.userRW b else PTE.zero
      else if q = b then
        if k = 0 then PTE.userRW c else if k < 4 then PTE.kernelRW (k + 3) else PTE.zero
      else if q = c then
        if k ∈ [32, 33, 34, 35, 36, 37] then PTE.kernelLarge (k * 512)
        else if k ∈ [0, 1, 2, 3] then PTE.userLarge (k * 512) else PTE.zero
      else v.mem q k := by
  have hmem (q k : Nat) : (takeZeroed (takeZeroed (takeZeroed v a) b) c).mem q k =
      if q = a ∨ q = b ∨ q = c then PTE.zero else v.mem q k := by
    simp only [takeZeroed, zeroFrame_mem]
    split_ifs <;> simp_all
  by_cases hqc : q = c
  · subst hqc
    rw [if_neg hac.symm, if_neg hbc.symm, if_pos rfl]
    exact fillPageDir_pd hac.symm hbc.symm _ (fun k => by simp [hmem]) k
  · rw [fillPageDir_other hqc, hmem]
    by_cases hqa : q = a
    · simp [hqa, hab]
    · by_cases hqb : q = b
      · subst hqb
        simp only [hqa, if_false, true_and, false_and, if_true, true_or, or_true]
        rcases Nat.lt_or_ge k 4 with hk | hk
        · interval_cases k <;> rfl
        · have h₃ : k ≠ 3 := by omega
          have h₂ : k ≠ 2 := by omega
          have h₁ : k ≠ 1 := by omega
          have h₀ : k ≠ 0 := by omega
          simp [h₃, h₂, h₁, h₀, Nat.not_lt_of_le hk]
      · simp [hqa, hqb, hqc]

theorem newSpace_used (a b c g : Nat) :
    (fillPageDir (takeZeroed (takeZeroed (takeZeroed v a) b) c) a b c).used g =
      (decide (g = a ∨ g = b ∨ g = c) || v.used g) := by
  have hused : (fillPageDir (takeZeroed (takeZeroed (takeZeroed v a) b) c) a b c).used =
      (takeZeroed (takeZeroed (takeZeroed v a) b) c).used := rfl
  rw [hused]
  by_cases ha : g = a
  · simp [takeZeroed, zeroFrame, Function.update_apply, ha]
  · by_cases hb : g = b
    · simp [takeZeroed, zeroFrame, Function.update_apply, hb]
    · by_cases hc : g = c
      · simp [takeZeroed, zeroFrame, hc]
      · simp [takeZeroed, zeroFrame, ha, hb, hc]

theorem addRoot_old {x : Nat × Level} (h : Tree v tab) (ha : a ∈ freeFrames v)
    (hb : b ∈ freeFrames v) (hc : c ∈ freeFrames v) (hq : tab q = some x) :
    (q ≠ a ∧ q ≠ b ∧ q ≠ c) ∧ addRoot tab a b c q = some x := by
  have hne {f : Nat} (hf : f ∈ freeFrames v) : q ≠ f := by
    rintro rfl
    rw [h.none_of_free hf] at hq
    cases hq
  refine ⟨⟨hne ha, hne hb, hne hc⟩, ?_⟩
  rw [addRoot, if_neg (hne ha), if_neg (hne hb), if_neg (hne hc), hq]

/-- A table of the new map is one of the three new ones or an old one. -/
theorem addRoot_cases {l : Level} (hq : addRoot tab a b c q = some (r, l)) :
    q = a ∧ r = a ∧ l = .pml4 ∨ q = b ∧ r = a ∧ l = .pdpt ∨ q = c ∧ r = a ∧ l = .pd ∨
      (q ≠ a ∧ q ≠ b ∧ q ≠ c) ∧ tab q = some (r, l) := by
  unfold addRoot at hq
  split_ifs at hq with h₁ h₂ h₃
  · cases hq
    exact Or.inl ⟨h₁, rfl, rfl⟩
  · cases hq
    exact Or.inr (Or.inl ⟨h₂, rfl, rfl⟩)
  · cases hq
    exact Or.inr (Or.inr (Or.inl ⟨h₃, rfl, rfl⟩))
  · exact Or.inr (Or.inr (Or.inr ⟨⟨h₁, h₂, h₃⟩, hq⟩))

/-- The tables of another root are the old ones. -/
theorem addRoot_back {l : Level} (hq : addRoot tab a b c q = some (r, l)) (hr : r ≠ a) :
    (q ≠ a ∧ q ≠ b ∧ q ≠ c) ∧ tab q = some (r, l) := by
  rcases addRoot_cases hq with ⟨-, hra, -⟩ | ⟨-, hra, -⟩ | ⟨-, hra, -⟩ | hold
  · exact absurd hra hr
  · exact absurd hra hr
  · exact absurd hra hr
  · exact hold

theorem addRoot_pml4 (hq : addRoot tab a b c q = some (r, .pml4)) :
    q = a ∧ r = a ∨ (q ≠ a ∧ q ≠ b ∧ q ≠ c) ∧ tab q = some (r, .pml4) := by
  rcases addRoot_cases hq with ⟨hqa, hra, -⟩ | ⟨-, -, hl⟩ | ⟨-, -, hl⟩ | hold
  · exact Or.inl ⟨hqa, hra⟩
  · cases hl
  · cases hl
  · exact Or.inr hold

theorem addRoot_pdpt (hq : addRoot tab a b c q = some (r, .pdpt)) :
    q = b ∧ r = a ∨ (q ≠ a ∧ q ≠ b ∧ q ≠ c) ∧ tab q = some (r, .pdpt) := by
  rcases addRoot_cases hq with ⟨-, -, hl⟩ | ⟨hqb, hra, -⟩ | ⟨-, -, hl⟩ | hold
  · cases hl
  · exact Or.inl ⟨hqb, hra⟩
  · cases hl
  · exact Or.inr hold

theorem addRoot_pd (hq : addRoot tab a b c q = some (r, .pd)) :
    q = c ∧ r = a ∨ (q ≠ a ∧ q ≠ b ∧ q ≠ c) ∧ tab q = some (r, .pd) := by
  rcases addRoot_cases hq with ⟨-, -, hl⟩ | ⟨-, -, hl⟩ | ⟨hqc, hra, -⟩ | hold
  · cases hl
  · cases hl
  · exact Or.inl ⟨hqc, hra⟩
  · exact Or.inr hold

/-- A new address space has no page table of its own yet. -/
theorem addRoot_pt {k : Nat} (hq : addRoot tab a b c q = some (r, .pt k)) :
    tab q = some (r, .pt k) := by
  rcases addRoot_cases hq with ⟨-, -, hl⟩ | ⟨-, -, hl⟩ | ⟨-, -, hl⟩ | ⟨-, hold⟩
  · cases hl
  · cases hl
  · cases hl
  · exact hold

/-- No old table belongs to the new root. -/
theorem not_free_root (h : Tree v tab) (ha : a ∈ freeFrames v) {l : Level} :
    tab q ≠ some (a, l) := by
  intro hq
  have hroot := h.root hq
  rw [h.none_of_free ha] at hroot
  cases hroot

/-- Two tables of one root and one level are one. -/
theorem addRoot_unique (h : Tree v tab) (ha : a ∈ freeFrames v) {l : Level}
    (hf : addRoot tab a b c f = some (r, l)) (hg : addRoot tab a b c g = some (r, l)) :
    f = g := by
  by_cases hr : r = a
  · subst hr
    rcases addRoot_cases hf with ⟨rfl, -, rfl⟩ | ⟨rfl, -, rfl⟩ | ⟨rfl, -, rfl⟩ | ⟨-, hold⟩
    · rcases addRoot_pml4 hg with ⟨rfl, -⟩ | ⟨-, hold⟩
      · rfl
      · exact absurd hold (h.not_free_root ha)
    · rcases addRoot_pdpt hg with ⟨rfl, -⟩ | ⟨-, hold⟩
      · rfl
      · exact absurd hold (h.not_free_root ha)
    · rcases addRoot_pd hg with ⟨rfl, -⟩ | ⟨-, hold⟩
      · rfl
      · exact absurd hold (h.not_free_root ha)
    · exact absurd hold (h.not_free_root ha)
  · exact h.unique (addRoot_back hf hr).2 (addRoot_back hg hr).2

/-- The new address space beside the others. -/
theorem newSpace (h : Tree v tab) (ha : a ∈ freeFrames v) (hb : b ∈ freeFrames v)
    (hc : c ∈ freeFrames v) (hab : a ≠ b) (hac : a ≠ c) (hbc : b ≠ c) :
    Tree (fillPageDir (takeZeroed (takeZeroed (takeZeroed v a) b) c) a b c)
      (addRoot tab a b c) := by
  have hrange {f : Nat} (hf : f ∈ freeFrames v) := (mem_freeFrames.mp hf).1
  have hsa : addRoot tab a b c a = some (a, .pml4) := by simp [addRoot]
  have hsb : addRoot tab a b c b = some (a, .pdpt) := by simp [addRoot, hab.symm]
  have hsc : addRoot tab a b c c = some (a, .pd) := by simp [addRoot, hac.symm, hbc.symm]
  have hkeep {q : Nat} {x : Nat × Level} (hq : tab q = some x) := addRoot_old h ha hb hc hq
  have hmem := newSpace_mem (v := v) hab hac hbc
  have hnew := newSpace_used (v := v) a b c
  generalize fillPageDir (takeZeroed (takeZeroed (takeZeroed v a) b) c) a b c = w at hmem hnew
  have hma (k : Nat) : w.mem a k = if k = 0 then PTE.userRW b else PTE.zero := by
    rw [hmem, if_pos rfl]
  have hmb (k : Nat) : w.mem b k = if k = 0 then PTE.userRW c
      else if k < 4 then PTE.kernelRW (k + 3) else PTE.zero := by
    rw [hmem, if_neg hab.symm, if_pos rfl]
  have hmc (k : Nat) : w.mem c k = if k ∈ [32, 33, 34, 35, 36, 37] then PTE.kernelLarge (k * 512)
      else if k ∈ [0, 1, 2, 3] then PTE.userLarge (k * 512) else PTE.zero := by
    rw [hmem, if_neg hac.symm, if_neg hbc.symm, if_pos rfl]
  have hmo {q : Nat} (hq : q ≠ a ∧ q ≠ b ∧ q ≠ c) (k : Nat) : w.mem q k = v.mem q k := by
    rw [hmem, if_neg hq.1, if_neg hq.2.1, if_neg hq.2.2]
  constructor
  case frame =>
    rintro f ⟨r, l⟩ hf
    rw [hnew]
    rcases addRoot_cases hf with ⟨rfl, -⟩ | ⟨rfl, -⟩ | ⟨rfl, -⟩ | ⟨-, hf⟩
    · exact ⟨(hrange ha).1, (hrange ha).2, by simp⟩
    · exact ⟨(hrange hb).1, (hrange hb).2, by simp⟩
    · exact ⟨(hrange hc).1, (hrange hc).2, by simp⟩
    · obtain ⟨hl, hh, hu⟩ := h.frame hf
      exact ⟨hl, hh, by simp [hu]⟩
  case unique =>
    rintro f g ⟨r, l⟩ hf hg
    exact h.addRoot_unique ha hf hg
  case self =>
    intro f r hf
    rcases addRoot_pml4 hf with ⟨rfl, rfl⟩ | ⟨-, hf⟩
    · rfl
    · exact h.self hf
  case root =>
    intro f r l hf
    by_cases hr : r = a
    · rw [hr, hsa]
    · exact (hkeep (h.root (addRoot_back hf hr).2)).2
  case top =>
    intro r hr
    rcases addRoot_pml4 hr with ⟨rfl, -⟩ | ⟨hq, hr⟩
    · exact ⟨b, by rw [hma, if_pos rfl], hsb⟩
    · obtain ⟨b', hb', htab⟩ := h.top hr
      exact ⟨b', by rw [hmo hq, hb'], (hkeep htab).2⟩
  case topRest =>
    intro r i hr hi hi512
    rcases addRoot_pml4 hr with ⟨rfl, -⟩ | ⟨hq, hr⟩
    · rw [hma, if_neg hi]
      rfl
    · rw [hmo hq]
      exact h.topRest hr hi hi512
  case mid =>
    intro p r hp
    rcases addRoot_pdpt hp with ⟨rfl, rfl⟩ | ⟨hq, hp⟩
    · exact ⟨c, by rw [hmb, if_pos rfl], hsc⟩
    · obtain ⟨c', hc', htab⟩ := h.mid hp
      exact ⟨c', by rw [hmo hq, hc'], (hkeep htab).2⟩
  case midBoot =>
    intro p r i hp hi hi4
    rcases addRoot_pdpt hp with ⟨rfl, -⟩ | ⟨hq, hp⟩
    · rw [hmb, if_neg hi, if_pos hi4]
    · rw [hmo hq]
      exact h.midBoot hp hi hi4
  case midRest =>
    intro p r i hp hi hi512
    rcases addRoot_pdpt hp with ⟨rfl, -⟩ | ⟨hq, hp⟩
    · rw [hmb, if_neg (by omega), if_neg (Nat.not_lt_of_le hi)]
      rfl
    · rw [hmo hq]
      exact h.midRest hp hi hi512
  case large =>
    intro p r k hp hk
    rcases addRoot_pd hp with ⟨rfl, -⟩ | ⟨hq, hp⟩
    · rw [hmc, mem_kernelPages]
      split_ifs with h₁ h₂
      · simp [h₁, PTE.kernelLarge]
      · simp [h₂, PTE.userLarge]
      · simp [h₁, h₂, PTE.zero]
    · rw [hmo hq]
      exact h.large hp hk
  case low =>
    intro p r k hp hk hplain hpres
    rcases addRoot_pd hp with ⟨rfl, -⟩ | ⟨hq, hp⟩
    · obtain ⟨h₁, h₂⟩ := not_or.mp (mt mem_kernelPages.mpr hplain)
      rw [hmc, if_neg h₁, if_neg h₂] at hpres
      cases hpres
    · rw [hmo hq] at hpres ⊢
      exact (hkeep (h.low hp hk hplain hpres)).2
  case linked =>
    intro f r k hf
    obtain ⟨hk, hplain, p, hp, hpres, hframe⟩ := h.linked (addRoot_pt hf)
    obtain ⟨hq, hp'⟩ := hkeep hp
    refine ⟨hk, hplain, p, hp', ?_⟩
    rw [hmo hq]
    exact ⟨hpres, hframe⟩
  case boot =>
    intro f i hf hi
    have hne {g : Nat} (hg : g ∈ freeFrames v) : f ≠ g := by
      rintro rfl
      exact absurd ((hrange hg).1.trans hf.2) (by decide)
    rw [hmo ⟨hne ha, hne hb, hne hc⟩]
    exact h.boot hf hi

/-- The new address space maps no page outside the 2 MB pages of the kernel. -/
theorem getPhys_newSpace (h : Tree v tab) (ha : a ∈ freeFrames v) (hb : b ∈ freeFrames v)
    (hc : c ∈ freeFrames v) (hab : a ≠ b) (hac : a ≠ c) (hbc : b ≠ c) (hva : UserVa va)
    (hplain : pdIdx va ∉ kernelPages) :
    getPhys (fillPageDir (takeZeroed (takeZeroed (takeZeroed v a) b) c) a b c) a va = 0 := by
  have hsc : addRoot tab a b c c = some (a, .pd) := by simp [addRoot, hac.symm, hbc.symm]
  obtain ⟨h₁, h₂⟩ := not_or.mp (mt mem_kernelPages.mpr hplain)
  have hentry := newSpace_mem (v := v) hab hac hbc c (pdIdx va)
  rw [if_neg hac.symm, if_neg hbc.symm, if_pos rfl, if_neg h₁, if_neg h₂] at hentry
  have hfirst : pml4Idx va = 0 ∧ pdptIdx va = 0 := hva
  rw [(newSpace h ha hb hc hab hac hbc).getPhys_eq hsc, if_pos hfirst, lowPhys, hentry]
  rfl

end NewSpace

/-! ## A frame that is taken -/

/-- A frame that is taken and cleared was no table. -/
theorem takeZeroed (h : Tree v tab) (hf : f ∈ freeFrames v) : Tree (takeZeroed v f) tab := by
  have hne {q : Nat} {x : Nat × Level} (hq : tab q = some x) : q ≠ f := by
    rintro rfl
    rw [h.none_of_free hf] at hq
    cases hq
  have hmem {q : Nat} (hq : q ≠ f) : (Vmm.takeZeroed v f).mem q = v.mem q := by
    funext k
    simp [Vmm.takeZeroed, hq]
  refine h.of_same (fun q r l hq _ => hmem (hne hq)) (fun q hq => hmem ?_) fun q x hq => ?_
  · rintro rfl
    exact free_not_boot hf hq
  · simp [Vmm.takeZeroed, zeroFrame, hne hq, (h.frame hq).2.2]

theorem getPhys_takeZeroed (h : Tree v tab) (hf : f ∈ freeFrames v) (hr : tab r = some (r, .pml4))
    (va : Nat) : getPhys (Vmm.takeZeroed v f) r va = getPhys v r va := by
  refine h.getPhys_of_tables (h.takeZeroed hf) (fun q x hq => ⟨hq, ?_⟩) hr va
  have hqf : q ≠ f := by
    rintro rfl
    rw [h.none_of_free hf] at hq
    cases hq
  funext k
  simp [Vmm.takeZeroed, hqf]

/-- The entries of a page directory that lead to page tables. -/
theorem present_iff (h : Tree v tab) (hpd : tab pd = some (r, .pd)) (hk : k < 512)
    (hplain : k ∉ kernelPages) : (v.mem pd k).present = true ↔ ∃ pt, tab pt = some (r, .pt k) := by
  constructor
  · exact fun hpres => ⟨_, h.low hpd hk hplain hpres⟩
  · rintro ⟨pt, hpt⟩
    obtain ⟨-, -, p, hp, hpres, -⟩ := h.linked hpt
    rwa [h.unique hp hpd] at hpres

/-- The three ways in which `vmm_map_page` ends in user space: the page table was there; there
is neither a page table nor a frame for one; a new page table takes a frame. -/
theorem mapPage_ways (h : Tree v tab) (hr : tab r = some (r, .pml4)) (hva : UserVa va)
    (hplain : pdIdx va ∉ kernelPages) {e : PTE} {w : Vm} (hw : mapPage v r va e = w) :
    ((∃ pt, tab pt = some (r, .pt (pdIdx va))) ∧ Tree w tab ∧ w.used = v.used ∧
        ∀ va', getPhys w r va' =
          if UserVa va' ∧ pdIdx va' = pdIdx va ∧ ptIdx va' = ptIdx va then leafPhys e
          else getPhys v r va') ∨
      (¬∃ pt, tab pt = some (r, .pt (pdIdx va))) ∧
        (freeFrames v = ∅ ∧ w = v ∨
          ∃ f ∈ freeFrames v, Tree w (Function.update tab f (some (r, .pt (pdIdx va)))) ∧
            w.used = Function.update v.used f true ∧
            ∀ va', getPhys w r va' =
              if UserVa va' ∧ pdIdx va' = pdIdx va ∧ ptIdx va' = ptIdx va then leafPhys e
              else getPhys v r va') := by
  have h512 : pdIdx va < 512 := Nat.mod_lt _ (by decide)
  obtain ⟨pd, hpd⟩ := h.exists_pd hr
  rw [← h.present_iff hpd h512 hplain]
  rcases h.mapPage_cases hpd hva hplain e with ⟨hpres, hpt, heq⟩ |
    ⟨hnone, ⟨hempty, heq⟩ | ⟨f, hf, heq⟩⟩
  · left
    rw [← hw, heq]
    refine ⟨hpres, h.setLeaf hpt _ e, rfl, fun va' => ?_⟩
    rw [h.getPhys_setLeaf hpt e hr va']
    simp only [true_and]
  · exact Or.inr ⟨by rw [hnone]; decide, Or.inl ⟨hempty, hw.symm.trans heq⟩⟩
  · right
    refine ⟨by rw [hnone]; decide, Or.inr ⟨f, hf, ?_⟩⟩
    have hnew := h.newTable hpd h512 hplain hnone hf
    have hf' : Function.update tab f (some (r, Level.pt (pdIdx va))) f
        = some (r, .pt (pdIdx va)) := Function.update_self ..
    have hr' : Function.update tab f (some (r, Level.pt (pdIdx va))) r = some (r, .pml4) := by
      have hrf : r ≠ f := by
        rintro rfl
        rw [h.none_of_free hf] at hr
        cases hr
      rw [Function.update_of_ne hrf, hr]
    rw [← hw, heq]
    refine ⟨hnew.setLeaf hf' _ e, rfl, fun va' => ?_⟩
    rw [hnew.getPhys_setLeaf hf' e hr' va', h.getPhys_newTable hpd h512 hplain hnone hf hr]
    simp only [true_and]

/-! ## What a root reaches -/

theorem walk_spec (h : Tree v tab) (hr : tab r = some (r, .pml4)) (hf : f ∈ walk v r va) :
    (∃ l, tab f = some (r, l)) ∨ IsBootPd f := by
  have h512 (i : Nat) : i % 512 < 512 := Nat.mod_lt _ (by decide)
  obtain ⟨b, htop, hb⟩ := h.top hr
  obtain ⟨c, hmid, hc⟩ := h.mid hb
  have hpdpt {q : Nat} (hq : tableAt v r (pml4Idx va) = some q) : q = b := by
    obtain ⟨hpres, hframe⟩ := tableAt_eq_some.mp hq
    by_cases hi : pml4Idx va = 0
    · rw [hi, htop] at hframe
      exact hframe.symm
    · rw [h.topRest hr hi (h512 _)] at hpres
      cases hpres
  have hpd {q : Nat} (hq : pdOf v r va = some q) : q = c ∨ IsBootPd q := by
    obtain ⟨p, hp, hq⟩ := Option.bind_eq_some_iff.mp hq
    obtain rfl := hpdpt hp
    obtain ⟨hpres, hframe⟩ := tableAt_eq_some.mp hq
    by_cases hj : pdptIdx va = 0
    · rw [hj, hmid] at hframe
      exact Or.inl hframe.symm
    · by_cases hj4 : pdptIdx va < 4
      · rw [h.midBoot hb hj hj4] at hframe
        have heq : pdptIdx va + 3 = q := hframe
        exact Or.inr ⟨by omega, by omega⟩
      · rw [h.midRest hb (Nat.le_of_not_lt hj4) (h512 _)] at hpres
        cases hpres
  simp only [walk, List.mem_cons, List.mem_append, Option.mem_toList] at hf
  rcases hf with rfl | (hf | hf) | hf
  · exact Or.inl ⟨_, hr⟩
  · exact Or.inl ⟨_, hpdpt hf ▸ hb⟩
  · exact (hpd hf).imp (fun hq => ⟨_, hq ▸ hc⟩) id
  · obtain ⟨q, hq, hf⟩ := Option.bind_eq_some_iff.mp hf
    split at hf
    · cases hf
    · next hl =>
      obtain ⟨hpres, rfl⟩ := tableAt_eq_some.mp hf
      rcases hpd hq with rfl | hboot
      · exact Or.inl ⟨_, h.low hc (h512 _) (mt (h.large hc (h512 _)).mpr hl) hpres⟩
      · rw [h.boot hboot (i := pdIdx va) (h512 _)] at hl
        exact absurd rfl hl

/-- Every table lies on the way to an address. -/
theorem exists_walk (h : Tree v tab) {l : Level} (hf : tab f = some (r, l)) :
    ∃ va, f ∈ walk v r va := by
  have hr := h.root hf
  obtain ⟨b, htop, hb⟩ := h.top hr
  obtain ⟨c, hmid, hc⟩ := h.mid hb
  have hfirst : UserVa 0 := ⟨rfl, rfl⟩
  cases l with
  | pml4 =>
      obtain rfl := h.self hf
      exact ⟨0, List.mem_cons_self⟩
  | pdpt =>
      obtain rfl := h.unique hf hb
      have hat : tableAt v r (pml4Idx 0) = some f := by
        rw [hfirst.1, tableAt, htop]
        rfl
      exact ⟨0, by simp [walk, hat]⟩
  | pd =>
      exact ⟨0, by simp [walk, h.pdOf_eq hf hfirst]⟩
  | pt k =>
      obtain ⟨hk, hplain, p, hp, hpres, hframe⟩ := h.linked hf
      obtain ⟨va, hva, hidx⟩ : ∃ va, UserVa va ∧ pdIdx va = k := by
        refine ⟨k * 2 ^ 21, ?_, ?_⟩
        · simp only [UserVa, pml4Idx, pdptIdx]
          omega
        · simp only [pdIdx]
          omega
      have hpt : ptOf v r va = some f := by
        rw [h.ptOf_eq hp hva (hidx ▸ hplain), hidx]
        exact tableAt_eq_some.mpr ⟨hpres, hframe⟩
      exact ⟨va, by simp [walk, hpt]⟩

/-- A new address space translates to no frame of the bitmap. -/
theorem getPhys_newSpace_outOfRange {a b c : Nat} (h : Tree v tab) (ha : a ∈ freeFrames v)
    (hb : b ∈ freeFrames v) (hc : c ∈ freeFrames v) (hab : a ≠ b) (hac : a ≠ c) (hbc : b ≠ c)
    (va : Nat) : OutOfRange
      (getPhys (fillPageDir (Vmm.takeZeroed (Vmm.takeZeroed (Vmm.takeZeroed v a) b) c) a b c)
        a va) := by
  have hpd : addRoot tab a b c c = some (a, .pd) := by simp [addRoot, hac.symm, hbc.symm]
  have hentry := newSpace_mem (v := v) hab hac hbc c (pdIdx va)
  rw [if_neg hac.symm, if_neg hbc.symm, if_pos rfl] at hentry
  have hpt : ptIdx va < 512 := Nat.mod_lt _ (by decide)
  rw [(newSpace h ha hb hc hab hac hbc).getPhys_eq hpd]
  unfold OutOfRange
  split
  · by_cases hkernel : pdIdx va ∈ [32, 33, 34, 35, 36, 37]
    · rw [if_pos hkernel] at hentry
      have hlow : 32 ≤ pdIdx va := by
        simp only [List.mem_cons, List.not_mem_nil, or_false] at hkernel
        omega
      simp only [lowPhys, hentry, PTE.kernelLarge, Bool.not_true, Bool.false_eq_true, if_false,
        if_true, totalFrames]
      omega
    · rw [if_neg hkernel] at hentry
      by_cases huser : pdIdx va ∈ [0, 1, 2, 3]
      · rw [if_pos huser] at hentry
        have hhigh : pdIdx va ≤ 3 := by
          simp only [List.mem_cons, List.not_mem_nil, or_false] at huser
          omega
        simp only [lowPhys, hentry, PTE.userLarge, Bool.not_true, Bool.false_eq_true, if_false,
          if_true, reservedFrames]
        omega
      · rw [if_neg huser] at hentry
        left
        simp [lowPhys, hentry, PTE.zero]
  · unfold highPhys
    split_ifs with hhigh
    · right
      have hne : pdptIdx va ≠ 0 := by tauto
      simp only [totalFrames]
      omega
    · exact Or.inl (by decide)

end Tree

end OriaOS.Vmm
