import Mathlib

/-!
# Pages shared by several owners

An owner sees a page through an entry, which names a frame and may allow to write
to it. Many entries may name one frame. As long as an entry that allows writing
is the only one for its frame, every owner has a memory of its own: a write
changes one page of one owner, and an owner can be duplicated without copying a
frame.
-/

namespace OriaOS.Lib

variable {P A E F V : Type*} [DecidableEq P] [DecidableEq A]

/-- What each owner has at each address. -/
abbrev Memories (P A V : Type*) := P → A → Option V

/-- Change one page of one owner. -/
def Memories.set (m : Memories P A V) (p : P) (a : A) (o : Option V) : Memories P A V :=
  Function.update m p (Function.update (m p) a o)

theorem Memories.set_apply (m : Memories P A V) (p : P) (a : A) (o : Option V) (p' : P) (a' : A) :
    m.set p a o p' a' = if p' = p ∧ a' = a then o else m p' a' := by
  by_cases hp : p' = p
  · subst hp
    by_cases ha : a' = a
    · simp [Memories.set, ha]
    · simp [Memories.set, ha]
  · simp [Memories.set, hp]

@[simp] theorem Memories.set_self (m : Memories P A V) (p : P) (a : A) (o : Option V) :
    m.set p a o p a = o := by
  simp [Memories.set_apply]

theorem Memories.set_of_ne (m : Memories P A V) {p p' : P} {a a' : A} (o : Option V)
    (h : ¬ (p' = p ∧ a' = a)) : m.set p a o p' a' = m p' a' := by
  rw [Memories.set_apply, if_neg h]

theorem Memories.set_eq_self (m : Memories P A V) (p : P) (a : A) : m.set p a (m p a) = m := by
  simp [Memories.set]

variable {frame : E → F} {writable : E → Prop} {L : Memories P A E} {data : F → V}

/-- What the owners find behind their entries. -/
def behind (frame : E → F) (L : Memories P A E) (data : F → V) : Memories P A V :=
  fun p a => (L p a).map fun e => data (frame e)

/-- No entry names the frame. -/
def Unnamed (frame : E → F) (L : Memories P A E) (f : F) : Prop :=
  ∀ ⦃p a e⦄, L p a = some e → frame e ≠ f

/-- No other entry names the frame of this one. -/
def Alone (frame : E → F) (L : Memories P A E) (p : P) (a : A) (f : F) : Prop :=
  ∀ ⦃p' a' e'⦄, L p' a' = some e' → frame e' = f → p' = p ∧ a' = a

/-- A frame that can be written to has one entry. -/
def Exclusive (frame : E → F) (writable : E → Prop) (L : Memories P A E) : Prop :=
  ∀ ⦃p a e⦄, L p a = some e → writable e → Alone frame L p a (frame e)

/-! ## Writing -/

/-- A write through an entry that is alone changes this page of this owner only. -/
theorem behind_write [DecidableEq F] {p : P} {a : A} {e : E} (he : L p a = some e)
    (halone : Alone frame L p a (frame e)) (x : V) :
    behind frame L (Function.update data (frame e) x) =
      (behind frame L data).set p a (some x) := by
  funext p' a'
  by_cases hpa : p' = p ∧ a' = a
  · obtain ⟨rfl, rfl⟩ := hpa
    simp [behind, he]
  · rw [Memories.set_of_ne _ _ hpa]
    unfold behind
    cases he' : L p' a' with
    | none => rfl
    | some e' =>
        have hne : frame e' ≠ frame e := fun hf => hpa (halone he' hf)
        simp [hne]

omit [DecidableEq P] [DecidableEq A] in
/-- Nobody sees a write to a frame that no entry names. -/
theorem behind_unnamed [DecidableEq F] {f : F} (hf : Unnamed frame L f) (x : V) :
    behind frame L (Function.update data f x) = behind frame L data := by
  funext p a
  unfold behind
  cases he : L p a with
  | none => rfl
  | some e => simp [hf he]

/-! ## Changing one entry -/

section Set
variable {p : P} {a : A} {e : E}

/-- A new frame with its contents becomes a page. -/
theorem behind_fresh [DecidableEq F] (hnew : Unnamed frame L (frame e)) (x : V) :
    behind frame (L.set p a (some e)) (Function.update data (frame e) x) =
      (behind frame L data).set p a (some x) := by
  funext p' a'
  by_cases hpa : p' = p ∧ a' = a
  · obtain ⟨rfl, rfl⟩ := hpa
    simp [behind]
  · rw [Memories.set_of_ne _ _ hpa]
    unfold behind
    rw [Memories.set_of_ne _ _ hpa]
    cases he' : L p' a' with
    | none => rfl
    | some e' => simp [hnew he']

/-- Another entry for the same frame shows the same contents. -/
theorem behind_reflag {e₀ : E} (he₀ : L p a = some e₀) (hf : frame e = frame e₀) :
    behind frame (L.set p a (some e)) data = behind frame L data := by
  funext p' a'
  by_cases hpa : p' = p ∧ a' = a
  · obtain ⟨rfl, rfl⟩ := hpa
    simp [behind, he₀, hf]
  · simp only [behind, Memories.set_of_ne _ _ hpa]

/-- An entry may allow writing if no other names its frame. -/
theorem Exclusive.set (h : Exclusive frame writable L) (halone : Alone frame L p a (frame e)) :
    Exclusive frame writable (L.set p a (some e)) := by
  intro p₁ a₁ e₁ he₁ hw p₂ a₂ e₂ he₂ hf
  by_cases h₁ : p₁ = p ∧ a₁ = a
  · rw [h₁.1, h₁.2, Memories.set_self] at he₁
    cases he₁
    by_cases h₂ : p₂ = p ∧ a₂ = a
    · exact ⟨h₂.1.trans h₁.1.symm, h₂.2.trans h₁.2.symm⟩
    · rw [Memories.set_of_ne _ _ h₂] at he₂
      exact absurd (halone he₂ hf) h₂
  · rw [Memories.set_of_ne _ _ h₁] at he₁
    by_cases h₂ : p₂ = p ∧ a₂ = a
    · rw [h₂.1, h₂.2, Memories.set_self] at he₂
      cases he₂
      exact absurd (halone he₁ hf.symm) h₁
    · rw [Memories.set_of_ne _ _ h₂] at he₂
      exact h he₁ hw he₂ hf

omit [DecidableEq P] [DecidableEq A] in
theorem Unnamed.alone {f : F} (h : Unnamed frame L f) : Alone frame L p a f :=
  fun _ _ _ he hf => absurd hf (h he)

end Set

/-! ## Owners -/

/-- Both owners get an entry for each page of the first. -/
def share (sharing : E → E) (L : Memories P A E) (parent child : P) : Memories P A E :=
  fun p a => if p = parent ∨ p = child then (L parent a).map sharing else L p a

section Share
variable {sharing : E → E} {parent child : P}

omit [DecidableEq A] in
/-- The second owner has a copy of the memory of the first. -/
theorem behind_share (hframe : ∀ e, frame (sharing e) = frame e) :
    behind frame (share sharing L parent child) data =
      Function.update (behind frame L data) child (behind frame L data parent) := by
  funext p a
  unfold behind share
  by_cases hc : p = child
  · subst hc
    simp [Function.comp_def, hframe]
  · by_cases hp : p = parent
    · subst hp
      simp [hc, Function.comp_def, hframe]
    · simp [hc, hp]

omit [DecidableEq A] in
/-- Entries that do not allow writing can be shared. -/
theorem Exclusive.share (h : Exclusive frame writable L) (hframe : ∀ e, frame (sharing e) = frame e)
    (hro : ∀ e, ¬ writable (sharing e)) :
    Exclusive frame writable (share sharing L parent child) := by
  intro p a e he hw p' a' e' he' hf
  have hp : ¬ (p = parent ∨ p = child) := by
    intro hp
    rw [Lib.share, if_pos hp] at he
    obtain ⟨e₀, -, rfl⟩ := Option.map_eq_some_iff.mp he
    exact hro e₀ hw
  rw [Lib.share, if_neg hp] at he
  by_cases hp' : p' = parent ∨ p' = child
  · rw [Lib.share, if_pos hp'] at he'
    obtain ⟨e₀, he₀, rfl⟩ := Option.map_eq_some_iff.mp he'
    rw [hframe] at hf
    -- The page of the parent would be a second entry for the frame.
    exact absurd (Or.inl (h he hw he₀ hf).1.symm) hp
  · rw [Lib.share, if_neg hp'] at he'
    exact h he hw he' hf

end Share

omit [DecidableEq A] in
/-- An owner goes. -/
theorem Exclusive.drop (h : Exclusive frame writable L) (p : P) :
    Exclusive frame writable (Function.update L p fun _ => none) := by
  have hold {p₁ : P} {a : A} {e : E}
      (he : Function.update L p (fun _ => none) p₁ a = some e) : L p₁ a = some e := by
    by_cases hp : p₁ = p
    · subst hp
      simp at he
    · rwa [Function.update_of_ne hp] at he
  intro p₁ a e he hw p₂ a₂ e₂ he₂ hf
  exact h (hold he) hw (hold he₂) hf

omit [DecidableEq A] in
theorem behind_drop (p : P) :
    behind frame (Function.update L p fun _ => none) data =
      Function.update (behind frame L data) p fun _ => none := by
  funext p' a
  by_cases hp : p' = p
  · subst hp
    simp [behind]
  · simp [behind, hp]

end OriaOS.Lib
