import Mathlib.Data.List.Range
import OriaOS.Lib.Faults
import OriaOS.Lib.StableSort
import OriaOS.Vmm.Process

/-!
# Sorting and searching

`qsort` and `bsearch` of `lib.h`. Elements are moved byte by byte, through `tmp`, and every index
is an `unsigned int` product. The comparator is a function of the bytes of two elements.
-/

namespace OriaOS.Libc

open OriaOS.Lib OriaOS.Lib.Faulting

abbrev Bytes := List UInt8

/-! ## Memory -/

/-- The bytes of the array and of `tmp`. -/
inductive Place
  | arr (p : Nat)
  | tmp (p : Nat)
  deriving DecidableEq

abbrev Mem := Place → UInt8

/-- `sizeof(tmp)`. -/
abbrev tmpSize : Nat := 256

/-- The place lies in the array of so many bytes, or in `tmp`. -/
def Inside (total : Nat) : Place → Prop
  | .arr p => p < total
  | .tmp p => p < tmpSize

instance (total : Nat) : DecidablePred (Inside total)
  | .arr p => inferInstanceAs (Decidable (p < total))
  | .tmp p => inferInstanceAs (Decidable (p < tmpSize))

def fetch (total : Nat) (m : Mem) (pl : Place) : Faulting UInt8 :=
  if Inside total pl then pure (m pl) else .error .outside

def assign (total : Nat) (m : Mem) (pl : Place) (v : UInt8) : Faulting Mem :=
  if Inside total pl then pure (Function.update m pl v) else .error .outside

/-- The element that a pointer handed to the comparator is to: all its bytes are readable. -/
def element (total : Nat) (m : Mem) (ptr : Nat → Place) (size : Nat) : Faulting Bytes :=
  if ∀ k < size, Inside total (ptr k) then pure ((List.range size).map fun k => m (ptr k))
  else .error .outside

/-! ## The code -/

/-- `arr[i * size + k]`. -/
def index (size i : UInt32) (k : Nat) : Place := .arr (i * size + UInt32.ofNat k).toNat

/-- `arr + i * size`, and the bytes from there on. -/
def pointer (size i : UInt32) (k : Nat) : Place := .arr ((i * size).toNat + k)

/-- `for (...; k < size; k++) dst[k] = src[k]`, with so many turns left. -/
def copyLoop (total : Nat) (dst src : Nat → Place) : Nat → Nat → Mem → Faulting Mem
  | 0, _, m => pure m
  | left + 1, k, m => do
      let v ← fetch total m (src k)
      let m ← assign total m (dst k) v
      copyLoop total dst src left (k + 1) m

/-- The loop that moves greater elements up, from `j` down. -/
def shiftLoop (compar : Bytes → Bytes → Int) (total : Nat) (size : UInt32) :
    Nat → Mem → Faulting (UInt32 × Mem)
  | 0, m => pure (0, m)
  | j + 1, m => do
      let a ← element total m (pointer size (UInt32.ofNat j)) size.toNat
      let t ← element total m .tmp size.toNat
      if compar a t > 0 then do
        let m ← copyLoop total (index size (UInt32.ofNat (j + 1))) (index size (UInt32.ofNat j))
          size.toNat 0 m
        shiftLoop compar total size j m
      else pure (UInt32.ofNat (j + 1), m)

/-- The loop over `i`, with so many turns left. -/
def sortLoop (compar : Bytes → Bytes → Int) (total : Nat) (size : UInt32) :
    Nat → UInt32 → Mem → Faulting Mem
  | 0, _, m => pure m
  | left + 1, i, m => do
      let m ← copyLoop total .tmp (index size i) size.toNat 0 m
      let r ← shiftLoop compar total size i.toNat m
      let m ← copyLoop total (index size r.1) .tmp size.toNat 0 r.2
      sortLoop compar total size left (i + 1) m

/-- `qsort`. The turns run from 1 to `nmemb - 1`. -/
def qsort (nmemb size : UInt32) (compar : Bytes → Bytes → Int) (m : Mem) : Faulting Mem :=
  if size > 256 then pure m
  else sortLoop compar (nmemb.toNat * size.toNat) size (nmemb.toNat - 1) 1 m

/-- The loop of `bsearch`. -/
def searchLoop (compar : Bytes → Bytes → Int) (total : Nat) (size : UInt32) (key : Bytes)
    (m : Mem) : Nat → UInt32 → UInt32 → Faulting (Option Nat)
  | 0, _, _ => .error .fuel
  | fuel + 1, lo, hi =>
      if lo < hi then do
        let mid := lo + (hi - lo) / 2
        let e ← element total m (pointer size mid) size.toNat
        let c := compar key e
        if c = 0 then pure (some (mid * size).toNat)
        else if c < 0 then searchLoop compar total size key m fuel lo mid
        else searchLoop compar total size key m fuel (mid + 1) hi
      else pure none

/-- `bsearch`: how far behind `base` the element is, or no element. -/
def bsearch (key : Bytes) (nmemb size : UInt32) (compar : Bytes → Bytes → Int) (m : Mem) :
    Faulting (Option Nat) :=
  searchLoop compar (nmemb.toNat * size.toNat) size key m (nmemb.toNat + 1) 0 nmemb

/-! ## Arrays of elements -/

/-- The shape of an array: elements of 1 to 256 bytes, all of them in the addresses of a
program. -/
structure Arr where
  nmemb : UInt32
  size : UInt32
  size_pos : 0 < size.toNat
  size_le : size.toNat ≤ tmpSize
  inSpace : nmemb.toNat * size.toNat ≤ Vmm.userVaHigh

/-- Where an element may be: at an index of the array, or in `tmp`. -/
inductive Slot
  | elem (i : Nat)
  | saved
  deriving DecidableEq

namespace Arr
variable (a : Arr)

/-- The place of a byte of an element. -/
def place : Slot → Nat → Place
  | .elem i, k => .arr (i * a.size.toNat + k)
  | .saved, k => .tmp k

/-- The bytes of an element. -/
def contents (m : Mem) (s : Slot) : Bytes := (List.range a.size.toNat).map fun k => m (a.place s k)

/-- The elements of the array, in order. -/
def elems (m : Mem) : List Bytes :=
  (List.range a.nmemb.toNat).map fun i => a.contents m (.elem i)

/-- The slot exists. -/
def Valid : Slot → Prop
  | .elem i => i < a.nmemb.toNat
  | .saved => True

/-- The bytes of the array. -/
abbrev total : Nat := a.nmemb.toNat * a.size.toNat

variable {a} {m : Mem} {s t : Slot} {i k l : Nat}

/-! ## Places -/

theorem lt_total (hi : i < a.nmemb.toNat) (hk : k < a.size.toNat) :
    i * a.size.toNat + k < a.total :=
  calc
    i * a.size.toNat + k < (i + 1) * a.size.toNat := by rw [Nat.add_mul]; omega
    _ ≤ a.total := Nat.mul_le_mul_right _ hi

theorem inside_place (hs : a.Valid s) (hk : k < a.size.toNat) : Inside a.total (a.place s k) := by
  cases s with
  | elem i => exact lt_total hs hk
  | saved => exact Nat.lt_of_lt_of_le hk a.size_le

theorem total_le : a.total ≤ 2147483648 := a.inSpace

/-- No product of an index wraps. -/
theorem toNat_mul (hi : i < a.nmemb.toNat) :
    (UInt32.ofNat i * a.size).toNat = i * a.size.toNat := by
  have := lt_total hi a.size_pos
  have := a.total_le
  have := a.nmemb.toNat_lt
  rw [UInt32.toNat_mul, UInt32.toNat_ofNat', Nat.mod_eq_of_lt (a := i) (by omega),
    Nat.mod_eq_of_lt (by omega)]

theorem index_eq (hi : i < a.nmemb.toNat) (hk : k < a.size.toNat) :
    index a.size (UInt32.ofNat i) k = a.place (.elem i) k := by
  have := lt_total hi hk
  have := a.total_le
  have := a.size.toNat_lt
  rw [index, UInt32.toNat_add, toNat_mul hi, UInt32.toNat_ofNat', Nat.mod_eq_of_lt (a := k)
    (by omega), Nat.mod_eq_of_lt (by omega)]
  rfl

theorem pointer_eq (hi : i < a.nmemb.toNat) :
    pointer a.size (UInt32.ofNat i) = a.place (.elem i) := by
  funext k
  rw [pointer, toNat_mul hi]
  rfl

/-- Different bytes have different places. -/
theorem place_inj (hk : k < a.size.toNat) (hl : l < a.size.toNat)
    (h : a.place s k = a.place t l) : s = t ∧ k = l := by
  cases s <;> cases t <;> simp only [place, Place.arr.injEq, Place.tmp.injEq, reduceCtorEq] at h
  · rename_i i j
    have hdiv : ∀ {x y : Nat}, y < a.size.toNat → (x * a.size.toNat + y) / a.size.toNat = x := by
      intro x y hy
      rw [Nat.mul_comm, Nat.mul_add_div a.size_pos, Nat.div_eq_of_lt hy, Nat.add_zero]
    have hij : i = j := by rw [← hdiv (x := i) hk, h, hdiv hl]
    subst hij
    exact ⟨rfl, by omega⟩
  · exact ⟨rfl, h⟩

/-! ## Moving an element -/

/-- The bytes from one on, copied: they have their new values, and nothing else has changed. -/
theorem copyLoop_spec {dst src : Nat → Place} (hs : a.Valid s) (ht : a.Valid t) (hst : s ≠ t)
    (hdst : ∀ k < a.size.toNat, dst k = a.place s k)
    (hsrc : ∀ k < a.size.toNat, src k = a.place t k) {left : Nat}
    (hleft : k + left = a.size.toNat) :
    ∃ m', copyLoop a.total dst src left k m = pure m' ∧
      (∀ l, k ≤ l → l < a.size.toNat → m' (a.place s l) = m (a.place t l)) ∧
      ∀ pl, (∀ l, k ≤ l → l < a.size.toNat → pl ≠ a.place s l) → m' pl = m pl := by
  induction left generalizing k m with
  | zero => exact ⟨m, rfl, fun l hkl hl => by omega, fun _ _ => rfl⟩
  | succ left ih =>
      have hk : k < a.size.toNat := by omega
      obtain ⟨m', hm', hnew, hsame⟩ := ih (k := k + 1)
        (m := Function.update m (a.place s k) (m (a.place t k))) (by omega)
      refine ⟨m', ?_, ?_, ?_⟩
      · rw [copyLoop, hdst k hk, hsrc k hk, fetch, if_pos (inside_place ht hk), pure_bind, assign,
          if_pos (inside_place hs hk), pure_bind, hm']
      · intro l hkl hl
        rcases Nat.eq_or_lt_of_le hkl with rfl | hkl
        · rw [hsame _ fun l hkl hl h => by have := (place_inj hk hl h).2; omega,
            Function.update_self]
        · rw [hnew l hkl hl, Function.update_of_ne]
          intro h
          exact hst (place_inj hl hk h).1.symm
      · intro pl hpl
        rw [hsame pl fun l hkl hl => hpl l (by omega) hl,
          Function.update_of_ne (hpl k (Nat.le_refl k) hk)]

theorem contents_congr {m m' : Mem} (h : ∀ k < a.size.toNat, m (a.place s k) = m' (a.place t k)) :
    a.contents m s = a.contents m' t :=
  List.map_congr_left fun k hk => h k (List.mem_range.mp hk)

/-- A loop that copies a slot. -/
theorem copy_slot {dst src : Nat → Place} (hs : a.Valid s) (ht : a.Valid t) (hst : s ≠ t)
    (hdst : ∀ k < a.size.toNat, dst k = a.place s k)
    (hsrc : ∀ k < a.size.toNat, src k = a.place t k) :
    ∃ m', copyLoop a.total dst src a.size.toNat 0 m = pure m' ∧
      a.contents m' = Function.update (a.contents m) s (a.contents m t) := by
  obtain ⟨m', hm', hnew, hsame⟩ := copyLoop_spec (m := m) hs ht hst hdst hsrc (Nat.zero_add _)
  refine ⟨m', hm', ?_⟩
  funext u
  by_cases hu : u = s
  · subst hu
    rw [Function.update_self]
    exact contents_congr fun k hk => hnew k (Nat.zero_le k) hk
  · rw [Function.update_of_ne hu]
    apply contents_congr
    intro k hk
    exact hsame _ fun l _ hl h => hu (place_inj hk hl h).1

theorem element_eq {ptr : Nat → Place} (hs : a.Valid s) (hptr : ptr = a.place s) :
    element a.total m ptr a.size.toNat = pure (a.contents m s) := by
  subst hptr
  exact if_pos fun k hk => inside_place hs hk

end Arr

/-! ## Making room -/

section Sorts
variable {a : Arr} {m : Mem}

/-- The elements from `low` on up to `hole`, each one place further up. -/
def shifted (c : Slot → Bytes) (low hole : Nat) : Slot → Bytes
  | .elem t => if low < t ∧ t ≤ hole then c (.elem (t - 1)) else c (.elem t)
  | .saved => c .saved

theorem shifted_self (c : Slot → Bytes) (hole : Nat) : shifted c hole hole = c := by
  funext s
  cases s with
  | elem t => exact if_neg (by omega)
  | saved => rfl

/-- A greater element below the hole goes into it. -/
theorem shifted_update (c : Slot → Bytes) {low j : Nat} (h : low ≤ j) :
    shifted (Function.update c (.elem (j + 1)) (c (.elem j))) low j = shifted c low (j + 1) := by
  have hne : ∀ t, t ≠ j + 1 → Function.update c (.elem (j + 1)) (c (.elem j)) (.elem t)
      = c (.elem t) := by
    intro t ht
    rw [Function.update_of_ne (fun h => ht (Slot.elem.inj h))]
  funext s
  cases s with
  | saved =>
      change Function.update c _ _ .saved = c .saved
      rw [Function.update_of_ne (by simp)]
  | elem t =>
      simp only [shifted]
      by_cases ht : t = j + 1
      · subst ht
        rw [if_neg (by omega), Function.update_self, if_pos (by omega), Nat.add_sub_cancel]
      · rw [hne t ht]
        by_cases hin : low < t ∧ t ≤ j
        · rw [if_pos hin, if_pos (by omega), hne _ (by omega)]
        · rw [if_neg hin, if_neg (by omega)]

/-- The loop stops at the bottom or above an element that is not greater; what it passed is
greater and has moved up by one. -/
theorem shiftLoop_spec (compar : Bytes → Bytes → Int) {j : Nat} (hj : j < a.nmemb.toNat) :
    ∃ low m', shiftLoop compar a.total a.size j m = pure (UInt32.ofNat low, m') ∧ low ≤ j ∧
      a.contents m' = shifted (a.contents m) low j ∧
      (∀ t, low ≤ t → t < j → 0 < compar (a.contents m (.elem t)) (a.contents m .saved)) ∧
      ∀ t, low = t + 1 → compar (a.contents m (.elem t)) (a.contents m .saved) ≤ 0 := by
  induction j generalizing m with
  | zero =>
      refine ⟨0, m, rfl, Nat.le_refl 0, (shifted_self _ 0).symm, ?_, ?_⟩
      · intro t _ ht
        omega
      · intro t ht
        omega
  | succ j ih =>
      have hbelow : j < a.nmemb.toNat := by omega
      have helem := Arr.element_eq (m := m) (s := .elem j) hbelow (Arr.pointer_eq hbelow)
      have hsaved : element a.total m .tmp a.size.toNat = pure (a.contents m .saved) :=
        Arr.element_eq (s := .saved) trivial rfl
      by_cases hgt : compar (a.contents m (.elem j)) (a.contents m .saved) > 0
      · obtain ⟨m₁, hcopy, hm₁⟩ := Arr.copy_slot (m := m) (s := .elem (j + 1)) (t := .elem j) hj
          hbelow (by simp) (fun k hk => Arr.index_eq hj hk) (fun k hk => Arr.index_eq hbelow hk)
        obtain ⟨low, m', hrun, hto, hm', hgreater, hstop⟩ := ih (m := m₁) hbelow
        have hsame : ∀ t, t ≤ j → a.contents m₁ (.elem t) = a.contents m (.elem t) := by
          intro t ht
          rw [hm₁, Function.update_of_ne (by simp; omega)]
        have hkey : a.contents m₁ .saved = a.contents m .saved := by
          rw [hm₁, Function.update_of_ne (by simp)]
        refine ⟨low, m', ?_, by omega, ?_, ?_, ?_⟩
        · rw [shiftLoop, helem, pure_bind, hsaved, pure_bind, if_pos hgt, hcopy,
            pure_bind, hrun]
        · rw [hm', hm₁, shifted_update _ hto]
        · intro t hle hlt
          rcases Nat.lt_or_eq_of_le (Nat.le_of_lt_succ hlt) with ht | rfl
          · rw [← hsame t (by omega), ← hkey]
            exact hgreater t hle ht
          · exact hgt
        · intro t ht
          rw [← hsame t (by omega), ← hkey]
          exact hstop t ht
      · refine ⟨j + 1, m, ?_, Nat.le_refl _, (shifted_self _ _).symm, ?_, ?_⟩
        · rw [shiftLoop, helem, pure_bind, hsaved, pure_bind, if_neg hgt]
        · intro t _ ht
          omega
        · intro t ht
          obtain rfl : j = t := by omega
          omega

/-! ## `qsort` -/

/-- The elements below an index. -/
def below (c : Slot → Bytes) (i : Nat) : List Bytes := (List.range i).map fun t => c (.elem t)

theorem below_succ (c : Slot → Bytes) (i : Nat) : below c (i + 1) = below c i ++ [c (.elem i)] := by
  rw [below, List.range_succ, List.map_append]
  rfl

theorem below_congr {c c' : Slot → Bytes} {i : Nat} (h : ∀ t < i, c (.elem t) = c' (.elem t)) :
    below c i = below c' i :=
  List.map_congr_left fun t ht => h t (List.mem_range.mp ht)

/-- The elements below an index, and those from it on. -/
theorem below_split (c : Slot → Bytes) {low i : Nat} (h : low ≤ i) :
    below c i = below c low ++ (List.range' low (i - low)).map fun t => c (.elem t) := by
  obtain ⟨n, rfl⟩ : ∃ n, i = low + n := ⟨i - low, by omega⟩
  unfold below
  rw [List.range_add, List.map_append, Nat.add_sub_cancel_left, List.range'_eq_map_range]

/-- The elements below `i + 1` once the saved one is in the hole that was made for it. -/
theorem below_inserted (c : Slot → Bytes) {low i : Nat} (h : low ≤ i) (x : Bytes) :
    below (Function.update (shifted c low i) (.elem low) x) (i + 1)
      = below c low ++ x :: (List.range' low (i - low)).map fun t => c (.elem t) := by
  have hne : ∀ t, t ≠ low → Function.update (shifted c low i) (.elem low) x (.elem t)
      = shifted c low i (.elem t) := by
    intro t ht
    rw [Function.update_of_ne (fun h => ht (Slot.elem.inj h))]
  have hlow : below (Function.update (shifted c low i) (.elem low) x) low = below c low := by
    apply below_congr
    intro t ht
    rw [hne t (by omega)]
    exact if_neg (by omega)
  rw [below_split _ (show low ≤ i + 1 by omega), hlow, show i + 1 - low = (i - low) + 1 by omega,
    List.range'_succ, List.map_cons, Function.update_self, List.range'_eq_map_range,
    List.range'_eq_map_range, List.map_map, List.map_map]
  congr 2
  apply List.map_congr_left
  intro t ht
  rw [List.mem_range] at ht
  change Function.update (shifted c low i) _ x (.elem (low + 1 + t)) = c (.elem (low + t))
  rw [hne _ (by omega), shifted, if_pos (by omega), show low + 1 + t - 1 = low + t by omega]

/-- One turn: the elements up to `i` are sorted, and the others have not changed. -/
theorem turn_spec (compar : Bytes → Bytes → Int) {i : Nat} (hi : i < a.nmemb.toNat) :
    ∃ low m', (do
        let m ← copyLoop a.total .tmp (index a.size (UInt32.ofNat i)) a.size.toNat 0 m
        let r ← shiftLoop compar a.total a.size i m
        copyLoop a.total (index a.size r.1) .tmp a.size.toNat 0 r.2) = pure m' ∧ low ≤ i ∧
      (∀ t, low ≤ t → t < i → 0 < compar (a.contents m (.elem t)) (a.contents m (.elem i))) ∧
      (∀ t, low = t + 1 → compar (a.contents m (.elem t)) (a.contents m (.elem i)) ≤ 0) ∧
      below (a.contents m') (i + 1) = below (a.contents m) low ++ a.contents m (.elem i) ::
        (List.range' low (i - low)).map (fun t => a.contents m (.elem t)) ∧
      ∀ t, i < t → a.contents m' (.elem t) = a.contents m (.elem t) := by
  have htmp : ∀ k < a.size.toNat, Place.tmp k = a.place .saved k := fun _ _ => rfl
  obtain ⟨m₁, hsave, hm₁⟩ := Arr.copy_slot (m := m) (s := .saved) (t := .elem i) trivial hi
    (by simp) htmp (fun k hk => Arr.index_eq hi hk)
  have hsaved : a.contents m₁ .saved = a.contents m (.elem i) := by rw [hm₁, Function.update_self]
  have helem : ∀ t, a.contents m₁ (.elem t) = a.contents m (.elem t) := by
    intro t
    rw [hm₁, Function.update_of_ne (by simp)]
  obtain ⟨low, m₂, hshift, hlow, hm₂, hgreater, hstop⟩ :=
    shiftLoop_spec compar (m := m₁) hi
  have hin : low < a.nmemb.toNat := by omega
  obtain ⟨m₃, hput, hm₃⟩ := Arr.copy_slot (m := m₂) (s := .elem low) (t := .saved) hin trivial
    (by simp) (fun k hk => Arr.index_eq hin hk) htmp
  have hfinal : a.contents m₃ = Function.update (shifted (a.contents m₁) low i) (.elem low)
      (a.contents m (.elem i)) := by
    rw [hm₃, hm₂, ← hsaved]
    rfl
  refine ⟨low, m₃, ?_, hlow, ?_, ?_, ?_, ?_⟩
  · rw [hsave, pure_bind, hshift, pure_bind, hput]
  · intro t hle hlt
    rw [← helem t, ← hsaved]
    exact hgreater t hle hlt
  · intro t ht
    rw [← helem t, ← hsaved]
    exact hstop t ht
  · rw [hfinal, below_inserted _ hlow, below_congr fun t _ => helem t]
    simp only [helem]
  · intro t ht
    rw [hfinal, Function.update_of_ne (by simp; omega), ← helem t]
    exact if_neg (by omega)

/-- The loop sorts the elements that are left into the ones before. -/
theorem sortLoop_spec {compar : Bytes → Bytes → Int} {P : Bytes → Prop}
    (h : PreorderOn compar P) {orig : Slot → Bytes}
    (hP : ∀ t < a.nmemb.toNat, P (orig (.elem t))) {left i : Nat} (hleft : i + left = a.nmemb.toNat)
    (hsorted : Sorting compar P (below orig i) (below (a.contents m) i))
    (hrest : ∀ t, i ≤ t → a.contents m (.elem t) = orig (.elem t)) :
    ∃ m', sortLoop compar a.total a.size left (UInt32.ofNat i) m = .ok m' ∧
      Sorting compar P (below orig a.nmemb.toNat) (below (a.contents m') a.nmemb.toNat) := by
  induction left generalizing i m with
  | zero =>
      obtain rfl : i = a.nmemb.toNat := by omega
      exact ⟨m, rfl, hsorted⟩
  | succ left ih =>
      have hi : i < a.nmemb.toNat := by omega
      obtain ⟨low, m₁, hturn, hlow, hgreater, hstop, hbelow, hsame⟩ :=
        turn_spec compar (m := m) hi
      have hkey : a.contents m (.elem i) = orig (.elem i) := hrest i (Nat.le_refl i)
      have hnew : Sorting compar P (below orig (i + 1)) (below (a.contents m₁) (i + 1)) := by
        rw [below_split (a.contents m) hlow] at hsorted
        rw [below_succ, hbelow, hkey]
        apply hsorted.insert h
        · intro y hy
          obtain ⟨t, ht, rfl⟩ := List.mem_map.mp hy
          exact hP t ((List.mem_range.mp ht).trans hi)
        · exact hP i hi
        · intro y hy
          obtain ⟨t, ht, rfl⟩ := List.mem_map.mp hy
          rw [List.mem_range'_1] at ht
          rw [← hkey]
          exact hgreater t ht.1 (by omega)
        · intro y hy
          cases low with
          | zero => cases hy
          | succ t =>
              rw [below_succ, List.getLast?_concat, Option.mem_some_iff] at hy
              rw [← hy, ← hkey]
              exact hstop t rfl
      obtain ⟨m', hm', hdone⟩ := ih (m := m₁) (i := i + 1) (by omega) hnew fun t ht => by
        rw [hsame t (by omega)]
        exact hrest t (by omega)
      refine ⟨m', ?_, hdone⟩
      have hnat : (UInt32.ofNat i).toNat = i := by
        have := a.nmemb.toNat_lt
        rw [UInt32.toNat_ofNat', Nat.mod_eq_of_lt (by omega)]
      have hnext : UInt32.ofNat (i + 1) = UInt32.ofNat i + 1 := UInt32.ofNat_add i 1
      have hrun := congrArg (· >>= sortLoop compar a.total a.size left (UInt32.ofNat (i + 1))) hturn
      simp only [bind_assoc, pure_bind, hnext] at hrun
      rw [sortLoop, hnat, ← hm', hnext, ← hrun]

end Sorts

/-- The function sorts, unless an element is larger than `tmp`. -/
theorem qsort_spec (a : Arr) (m : Mem) {compar : Bytes → Bytes → Int}
    (h : PreorderOn compar (· ∈ a.elems m)) :
    ∃ m', qsort a.nmemb a.size compar m = .ok m' ∧
      Sorting compar (· ∈ a.elems m) (a.elems m) (a.elems m') := by
  have hsize : ¬a.size > 256 := by
    rw [gt_iff_lt, UInt32.lt_iff_toNat_lt]
    exact Nat.not_lt.mpr a.size_le
  rw [qsort, if_neg hsize]
  rcases Nat.eq_zero_or_pos a.nmemb.toNat with hzero | hpos
  · refine ⟨m, ?_, ?_⟩
    · rw [hzero]
      rfl
    · rw [Arr.elems, hzero]
      exact Sorting.nil
  · have hP : ∀ t < a.nmemb.toNat, a.contents m (.elem t) ∈ a.elems m := by
      intro t ht
      exact List.mem_map.mpr ⟨t, List.mem_range.mpr ht, rfl⟩
    exact sortLoop_spec (i := 1) h hP (by omega) (Sorting.singleton _) fun _ _ => rfl

/-! ## `bsearch` -/

section Search
variable {a : Arr} {m : Mem} {compar : Bytes → Bytes → Int} {key : Bytes}

/-- What a search should return: the place of an element that compares equal, or nothing where
there is none. -/
def Found (a : Arr) (m : Mem) (compar : Bytes → Bytes → Int) (key : Bytes) : Option Nat → Prop
  | some p => ∃ i < a.nmemb.toNat, p = i * a.size.toNat ∧ compar key (a.contents m (.elem i)) = 0
  | none => ∀ e ∈ a.elems m, compar key e ≠ 0

theorem toNat_mid {lo hi : UInt32} (h : lo < hi) :
    (lo + (hi - lo) / 2).toNat = lo.toNat + (hi.toNat - lo.toNat) / 2 := by
  have hlt := UInt32.lt_iff_toNat_lt.mp h
  have := hi.toNat_lt
  have hsub : (hi - lo).toNat = hi.toNat - lo.toNat :=
    UInt32.toNat_sub_of_le _ _ (UInt32.le_iff_toNat_le.mpr (Nat.le_of_lt hlt))
  have hhalf : ((hi - lo) / 2).toNat = (hi.toNat - lo.toNat) / 2 := by
    rw [UInt32.toNat_div, hsub]
    rfl
  rw [UInt32.toNat_add, hhalf, Nat.mod_eq_of_lt (by omega)]

/-- Below `lo` everything is smaller than the key, from `hi` on everything is greater. -/
structure Between (a : Arr) (m : Mem) (compar : Bytes → Bytes → Int) (key : Bytes)
    (lo hi : Nat) : Prop where
  le : lo ≤ hi
  hi_le : hi ≤ a.nmemb.toNat
  smaller : ∀ i < lo, 0 < compar key (a.contents m (.elem i))
  greater : ∀ i, hi ≤ i → i < a.nmemb.toNat → compar key (a.contents m (.elem i)) < 0

theorem searchLoop_spec (h : PreorderOn compar fun x => x = key ∨ x ∈ a.elems m)
    (hsorted : (a.elems m).Pairwise fun x y => compar x y ≤ 0) {fuel : Nat} {lo hi : UInt32}
    (hb : Between a m compar key lo.toNat hi.toNat) (hfuel : hi.toNat - lo.toNat < fuel) :
    ∃ r, searchLoop compar a.total a.size key m fuel lo hi = .ok r ∧ Found a m compar key r := by
  have hmem : ∀ i < a.nmemb.toNat, a.contents m (.elem i) = key ∨
      a.contents m (.elem i) ∈ a.elems m :=
    fun i hi => Or.inr (List.mem_map.mpr ⟨i, List.mem_range.mpr hi, rfl⟩)
  have hle : ∀ i j, i < j → j < a.nmemb.toNat →
      compar (a.contents m (.elem i)) (a.contents m (.elem j)) ≤ 0 := by
    intro i j hij hj
    rw [Arr.elems, List.pairwise_map, List.pairwise_iff_getElem] at hsorted
    have hij' := hsorted i j (by rw [List.length_range]; omega) (by rwa [List.length_range]) hij
    rwa [List.getElem_range, List.getElem_range] at hij'
  induction fuel generalizing lo hi with
  | zero => omega
  | succ fuel ih =>
      by_cases hlt : lo < hi
      · have hlt' := UInt32.lt_iff_toNat_lt.mp hlt
        have hmid := toNat_mid hlt
        obtain ⟨mid, hmidEq⟩ : ∃ mid, mid = lo + (hi - lo) / 2 := ⟨_, rfl⟩
        rw [← hmidEq] at hmid
        have hin : mid.toNat < a.nmemb.toNat := by
          have := hb.hi_le
          omega
        have hp := Arr.pointer_eq hin
        have hmul := Arr.toNat_mul hin
        rw [UInt32.ofNat_toNat] at hp hmul
        have helem := Arr.element_eq (m := m) (s := .elem mid.toNat) hin hp
        simp only [searchLoop, if_pos hlt, ← hmidEq, helem, pure_bind]
        by_cases hzero : compar key (a.contents m (.elem mid.toNat)) = 0
        · rw [if_pos hzero]
          exact ⟨_, rfl, mid.toNat, hin, hmul, hzero⟩
        rw [if_neg hzero]
        by_cases hless : compar key (a.contents m (.elem mid.toNat)) < 0
        · rw [if_pos hless]
          apply ih
          · refine ⟨by omega, Nat.le_of_lt hin, hb.smaller, ?_⟩
            intro i hi hi'
            rcases Nat.eq_or_lt_of_le hi with rfl | hi
            · exact hless
            · exact h.lt_of_lt_of_le (Or.inl rfl) (hmem _ hin) (hmem _ hi') hless (hle _ _ hi hi')
          · omega
        · rw [if_neg hless]
          have hnext : (mid + 1).toNat = mid.toNat + 1 := by
            have := hi.toNat_lt
            rw [UInt32.toNat_add]
            change (mid.toNat + 1) % 4294967296 = _
            omega
          apply ih
          · refine ⟨by omega, hb.hi_le, ?_, hb.greater⟩
            intro i hi
            have hgt : 0 < compar key (a.contents m (.elem mid.toNat)) := by omega
            rw [hnext] at hi
            rcases Nat.eq_or_lt_of_le (Nat.le_of_lt_succ hi) with rfl | hi
            · exact hgt
            · exact h.gt_of_gt_of_le (Or.inl rfl) (hmem _ hin) (hmem _ (by omega)) hgt
                (hle _ _ hi hin)
          · omega
      · rw [searchLoop, if_neg hlt]
        refine ⟨none, rfl, ?_⟩
        have hge := UInt32.le_iff_toNat_le.mp (UInt32.not_lt.mp hlt)
        intro e he
        obtain ⟨i, hi, rfl⟩ := List.mem_map.mp he
        rw [List.mem_range] at hi
        rcases Nat.lt_or_ge i lo.toNat with hlow | hlow
        · exact Int.ne_of_gt (hb.smaller i hlow)
        · exact Int.ne_of_lt (hb.greater i (by omega) hi)

/-- The function finds the key in a sorted array, if it is there. -/
theorem bsearch_spec (h : PreorderOn compar fun x => x = key ∨ x ∈ a.elems m)
    (hsorted : (a.elems m).Pairwise fun x y => compar x y ≤ 0) :
    ∃ r, bsearch key a.nmemb a.size compar m = .ok r ∧ Found a m compar key r := by
  apply searchLoop_spec h hsorted
  · refine ⟨Nat.zero_le _, Nat.le_refl _, ?_, ?_⟩
    · intro i hi
      exact absurd hi (Nat.not_lt_zero i)
    · intro i hi hi'
      omega
  · exact Nat.lt_succ_of_le (Nat.sub_le _ _)

end Search

/-- `qsort` leaves the elements sorted, those that compare equal in their order, and `bsearch`
finds what is there; neither touches a byte outside the array and `tmp`. -/
theorem qsort_bsearch (a : Arr) (compar : Bytes → Bytes → Int) (m : Mem) :
    (PreorderOn compar (· ∈ a.elems m) → ∃ m', qsort a.nmemb a.size compar m = .ok m' ∧
      Sorting compar (· ∈ a.elems m) (a.elems m) (a.elems m')) ∧
    ∀ key, PreorderOn compar (fun x => x = key ∨ x ∈ a.elems m) →
      (a.elems m).Pairwise (fun x y => compar x y ≤ 0) →
        ∃ r, bsearch key a.nmemb a.size compar m = .ok r ∧ Found a m compar key r :=
  ⟨qsort_spec a m, fun _ h hsorted => bsearch_spec h hsorted⟩

/-- A comparator that looks at the first byte. -/
def byFirst (x y : Bytes) : Int := (x.headD 0).toNat - (y.headD 0).toNat

theorem preorderOn_byFirst (P : Bytes → Prop) : PreorderOn byFirst P := by
  constructor
  · intro a b _ _
    unfold byFirst
    omega
  · intro a b c _ _ _
    unfold byFirst
    omega

/-- Three elements of two bytes. -/
def threePairs : Arr := ⟨3, 2, by decide, by decide, by decide⟩

def pairsMem : Mem
  | .arr p => [1, 0, 3, 0, 3, 1].getD p 0
  | .tmp _ => 0

theorem qsort_bsearch_pairs :
    (∃ m', qsort 3 2 byFirst pairsMem = .ok m' ∧
      Sorting byFirst (· ∈ threePairs.elems pairsMem) (threePairs.elems pairsMem)
        (threePairs.elems m')) ∧
    ∃ r, bsearch [3] 3 2 byFirst pairsMem = .ok r ∧ Found threePairs pairsMem byFirst [3] r := by
  have h := qsort_bsearch threePairs byFirst pairsMem
  refine ⟨h.1 (preorderOn_byFirst _), h.2 [3] (preorderOn_byFirst _) ?_⟩
  decide

end OriaOS.Libc
