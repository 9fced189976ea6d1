import OriaOS.Ext2.Image
import Mathlib.Data.List.Nodup
import Mathlib.Data.List.TakeWhile

/-!
# The two walks over a directory

The entries of a directory by the format on the disk, and what `dir_find` and `ext2_ls`
make of them: `dir_find` ends at the first hole, `ext2_ls` goes on behind it, and a path
component of 255 bytes is refused.
-/

namespace OriaOS.Ext2

variable {fuel k n : Nat} {name : Text}

/-! ## Directories by their format -/

/-- An entry of a directory. One whose inode is 0 is not in use. -/
structure DirEntry where
  ino : UInt32
  fileType : UInt8
  name : Text

/-- The entry at an offset. -/
def entryAt (b : Buf) (p : Nat) : DirEntry :=
  ⟨u32 b p, b (p + 7), (List.range (b (p + 6)).toNat).map fun k => b (p + 8 + k)⟩

/-- The entries from an offset on, when they lie one behind the other up to the end of
the block and each has room for its name. -/
def entriesFrom (b : Buf) (blockSize : Nat) : Nat → Nat → Option (List DirEntry)
  | 0, p => if p = blockSize then some [] else none
  | fuel + 1, p =>
      if p = blockSize then some []
      else
        let recLen := (u16 b (p + 4)).toNat
        if 8 + (b (p + 6)).toNat ≤ recLen ∧ p + recLen ≤ blockSize then
          (entriesFrom b blockSize fuel (p + recLen)).map (entryAt b p :: ·)
        else none

def blockEntries (b : Buf) (blockSize : Nat) : Option (List DirEntry) :=
  entriesFrom b blockSize blockSize 0

/-- What is behind a block of a file. -/
inductive Slot where
  | hole
  | unreadable
  | data (b : Buf)

def slotAt (m : Mount) (inode : Buf) (idx : Nat) : Slot :=
  let blkNo := inodeGetBlock m inode (UInt32.ofNat idx)
  if blkNo = 0 then .hole
  else
    match ext2ReadBlock m blkNo with
    | none => .unreadable
    | some b => .data b

/-- The blocks of a directory. -/
def slots (m : Mount) (inode : Buf) : List Slot :=
  (List.range ((inodeFileSize inode).toNat / m.blockSize.toNat)).map (slotAt m inode)

def Slot.entries (blockSize : Nat) : Slot → List DirEntry
  | .data b => (blockEntries b blockSize).getD []
  | _ => []

/-- The entry is in use. -/
def DirEntry.inUse (e : DirEntry) : Bool := e.ino ≠ 0

/-- The entries in use in some blocks. -/
def inUse (blockSize : Nat) (l : List Slot) : List DirEntry :=
  (l.flatMap (Slot.entries blockSize)).filter DirEntry.inUse

/-- A name as it may stand in a directory. -/
def IsName (name : Text) : Prop := name ≠ [] ∧ 0 ∉ name ∧ 0x2F ∉ name

instance (name : Text) : Decidable (IsName name) := inferInstanceAs (Decidable (_ ∧ _ ∧ _))

abbrev dot : Text := [0x2E]
abbrev dotdot : Text := [0x2E, 0x2E]

/-- The block can be read and its entries follow the format, or it is a hole. -/
def Slot.WellFormed (blockSize : Nat) : Slot → Prop
  | .hole => True
  | .unreadable => False
  | .data b =>
      (blockEntries b blockSize).isSome ∧
        ∀ e ∈ (blockEntries b blockSize).getD [], e.ino ≠ 0 → IsName e.name

instance (blockSize : Nat) : (s : Slot) → Decidable (s.WellFormed blockSize)
  | .hole => isTrue trivial
  | .unreadable => isFalse id
  | .data _ => inferInstanceAs (Decidable (_ ∧ _))

/-- A well-formed directory: its size is a number of blocks, every block that is there
follows the format, the names in use are distinct, and `.` and `..` are in its first block. -/
structure WellFormedDir (m : Mount) (dirIno : UInt32) (inode : Buf) : Prop where
  read : readInode m dirIno = some inode
  dir : isDir inode
  blockSize : 0 < m.blockSize.toNat
  size : m.blockSize.toNat ∣ (inodeFileSize inode).toNat
  slots : ∀ s ∈ slots m inode, s.WellFormed m.blockSize.toNat
  nodup : ((inUse m.blockSize.toNat (Ext2.slots m inode)).map DirEntry.name).Nodup
  dots : ∀ name ∈ [dot, dotdot],
    name ∈ (inUse m.blockSize.toNat ((Ext2.slots m inode).take 1)).map DirEntry.name

/-! ## A block -/

section Block
variable {b : Buf} {p blockSize fuel : Nat} {es : List DirEntry}

theorem xstrncmp_eq_zero {a c : Buf} {i : Nat} (hc : ∀ j < n, c (i + j) ≠ 0) :
    xstrncmp a c n i = 0 ↔ ∀ j < n, a (i + j) = c (i + j) := by
  induction n generalizing i with
  | zero => exact ⟨fun _ j hj => absurd hj (Nat.not_lt_zero j), fun _ => rfl⟩
  | succ n ih =>
      have hhead : c i ≠ 0 := hc 0 (Nat.succ_pos n)
      have hshift : ∀ j, i + 1 + j = i + (j + 1) := fun j => by omega
      unfold xstrncmp
      by_cases heq : a i = c i
      · rw [if_pos ⟨heq ▸ hhead, hhead, heq⟩,
          ih fun j hj => hshift j ▸ hc (j + 1) (Nat.succ_lt_succ hj)]
        constructor
        · intro h j hj
          cases j with
          | zero => exact heq
          | succ j => exact hshift j ▸ h j (Nat.lt_of_succ_lt_succ hj)
        · intro h j hj
          exact hshift j ▸ h (j + 1) (Nat.succ_lt_succ hj)
      · rw [if_neg fun h => heq h.2.2]
        constructor
        · intro h
          have hnat : (a i).toNat = (c i).toNat := by omega
          exact absurd (UInt8.toNat_inj.mp hnat) heq
        · intro h
          exact absurd (h 0 (Nat.succ_pos n)) heq

theorem entryAt_name_eq : (entryAt b p).name = name ↔
    (b (p + 6)).toNat = name.length ∧ ∀ j < name.length, b (p + 8 + j) = textBuf name j := by
  unfold entryAt textBuf
  dsimp only
  constructor
  · rintro rfl
    simp +contextual [List.getD_eq_getElem?_getD]
  · rintro ⟨hlen, hbytes⟩
    apply List.ext_getElem
    · rw [List.length_map, List.length_range, hlen]
    · intro j hj hj'
      rw [List.getElem_map, List.getElem_range, hbytes j hj',
        List.getD_eq_getElem?_getD, List.getElem?_eq_getElem hj', Option.getD_some]

/-- The test of `dir_find` is one for equal names. -/
theorem nameTest_iff (hzero : 0 ∉ name) (hlen : name.length ≤ 255) :
    (b (p + 6) = UInt8.ofNat name.length ∧
      xstrncmp (fun i => b (p + 8 + i)) (textBuf name) name.length 0 = 0) ↔
      (entryAt b p).name = name := by
  have hname : ∀ j < name.length, textBuf name (0 + j) ≠ 0 := by
    intro j hj heq
    unfold textBuf at heq
    rw [Nat.zero_add, List.getD_eq_getElem?_getD, List.getElem?_eq_getElem hj,
      Option.getD_some] at heq
    exact hzero (heq ▸ List.getElem_mem hj)
  have hcount : b (p + 6) = UInt8.ofNat name.length ↔ (b (p + 6)).toNat = name.length := by
    rw [← UInt8.toNat_inj, UInt8.toNat_ofNat_of_lt' (Nat.lt_of_le_of_lt hlen (by decide))]
  rw [hcount, xstrncmp_eq_zero hname, entryAt_name_eq]
  simp only [Nat.zero_add]

/-- What `entriesFrom` reads at one offset. -/
theorem entriesFrom_cases (h : entriesFrom b blockSize fuel p = some es) :
    (p = blockSize ∧ es = []) ∨ ∃ n rest, fuel = n + 1 ∧ p < blockSize ∧
      u16 b (p + 4) ≠ 0 ∧ es = entryAt b p :: rest ∧
      entriesFrom b blockSize n (p + (u16 b (p + 4)).toNat) = some rest := by
  cases fuel with
  | zero =>
      unfold entriesFrom at h
      split at h
      · exact Or.inl ⟨‹_›, (Option.some.inj h).symm⟩
      · cases h
  | succ n =>
      unfold entriesFrom at h
      dsimp only at h
      split at h
      · exact Or.inl ⟨‹_›, (Option.some.inj h).symm⟩
      · split at h
        · rename_i hrec
          obtain ⟨rest, hrest, rfl⟩ := Option.map_eq_some_iff.mp h
          have hpos : u16 b (p + 4) ≠ 0 := by
            intro hzero
            rw [hzero] at hrec
            have := hrec.1
            simp at this
          exact Or.inr ⟨n, rest, rfl, by omega, hpos, rfl, hrest⟩
        · cases h

/-- `dir_find` finds the first entry in use that has the name. -/
theorem findInBlock_eq (hzero : 0 ∉ name) (hlen : name.length ≤ 255)
    (h : entriesFrom b blockSize fuel p = some es) :
    findInBlock b blockSize name fuel p =
      (es.find? fun e => e.inUse && e.name = name).map DirEntry.ino := by
  induction fuel generalizing p es with
  | zero =>
      obtain ⟨-, rfl⟩ | ⟨n, rest, hfuel, -⟩ := entriesFrom_cases h
      · rfl
      · cases hfuel
  | succ fuel ih =>
      obtain ⟨rfl, rfl⟩ | ⟨n, rest, hfuel, hp, hrec, rfl, hrest⟩ := entriesFrom_cases h
      · unfold findInBlock
        rw [if_neg (Nat.lt_irrefl _)]
        rfl
      · obtain rfl : fuel = n := Nat.succ.inj hfuel
        unfold findInBlock
        dsimp only
        have htest := nameTest_iff (b := b) (p := p) hzero hlen
        have hino : (entryAt b p).ino = u32 b p := rfl
        rw [if_pos hp, if_neg hrec, List.find?_cons, ih hrest]
        by_cases hmatch : u32 b p ≠ 0 ∧ (entryAt b p).name = name
        · rw [if_pos ⟨hmatch.1, htest.mpr hmatch.2⟩]
          simp [DirEntry.inUse, hino, hmatch.1, hmatch.2]
        · rw [if_neg fun h => hmatch ⟨h.1, htest.mp h.2⟩]
          have hfalse : ((entryAt b p).inUse && decide ((entryAt b p).name = name)) = false := by
            rw [Bool.eq_false_iff]
            intro htrue
            obtain ⟨huse, hname⟩ := Bool.and_eq_true_iff.mp htrue
            exact hmatch ⟨of_decide_eq_true huse, of_decide_eq_true hname⟩
          rw [hfalse]

/-- The entry is `.` or `..`. -/
def DirEntry.isDots (e : DirEntry) : Bool := e.name = dot || e.name = dotdot

/-- What `ext2_ls` prints of an entry. -/
def lineOf (m : Mount) (e : DirEntry) : Line :=
  ⟨e.ino, (readInode m e.ino).map inodeFileSize, e.name, e.fileType = 2⟩

/-- The entries that `ext2_ls` prints. -/
def DirEntry.listed (e : DirEntry) : Bool := e.inUse && !e.isDots

theorem isDots_eq (hzero : 0 ∉ name) : isDots name = (name = dot || name = dotdot) := by
  obtain _ | ⟨a, _ | ⟨c, _ | ⟨d, rest⟩⟩⟩ := name
  · decide
  · simp [isDots, textBuf, dot, dotdot]
  · have hc : c ≠ 0 := fun h => hzero (by simp [h])
    simp [isDots, textBuf, dot, dotdot, hc]
  · have hc : c ≠ 0 := fun h => hzero (by simp [h])
    have hd : d ≠ 0 := fun h => hzero (by simp [h])
    simp [isDots, textBuf, dot, dotdot, hc, hd]

theorem entryName_eq (h : 0 ∉ (entryAt b p).name) : entryName b p = (entryAt b p).name := by
  apply List.takeWhile_eq_self_iff.mpr
  intro c hc
  exact decide_eq_true fun hzero => h (hzero ▸ hc)

theorem lsBlock_eq (m : Mount) (h : entriesFrom b blockSize fuel p = some es)
    (hnames : ∀ e ∈ es, e.ino ≠ 0 → IsName e.name) :
    lsBlock m b blockSize fuel p = (es.filter DirEntry.listed).map (lineOf m) := by
  induction fuel generalizing p es with
  | zero =>
      obtain ⟨-, rfl⟩ | ⟨n, rest, hfuel, -⟩ := entriesFrom_cases h
      · rfl
      · cases hfuel
  | succ fuel ih =>
      obtain ⟨rfl, rfl⟩ | ⟨n, rest, hfuel, hp, hrec, rfl, hrest⟩ := entriesFrom_cases h
      · unfold lsBlock
        rw [if_neg (Nat.lt_irrefl _)]
        rfl
      · obtain rfl : fuel = n := Nat.succ.inj hfuel
        have hino : (entryAt b p).ino = u32 b p := rfl
        have hrestNames := fun e he => hnames e (List.mem_cons_of_mem _ he)
        unfold lsBlock
        dsimp only
        rw [if_pos hp, if_neg hrec, List.filter_cons, ih hrest hrestNames]
        by_cases hzero : u32 b p = 0
        · simp [hzero, DirEntry.listed, DirEntry.inUse, hino]
        · obtain ⟨hne, hnul, -⟩ := hnames _ List.mem_cons_self hzero
          have hpos : 0 < b (p + 6) := by
            rw [UInt8.pos_iff_ne_zero]
            intro hlen
            exact hne (by simp [entryAt, hlen])
          have hdots : isDots (entryName b p) = (entryAt b p).isDots := by
            rw [entryName_eq hnul, isDots_eq hnul]
            rfl
          have hlisted : (entryAt b p).listed = !(entryAt b p).isDots := by
            simp [DirEntry.listed, DirEntry.inUse, hino, hzero]
          rw [hdots, hlisted]
          cases (entryAt b p).isDots with
          | true => simp
          | false =>
              simp only [hpos, ne_eq, hzero, not_false_eq_true, and_self, if_true, Bool.not_false,
                Bool.false_eq_true, List.map_cons]
              rw [entryName_eq hnul]
              rfl

end Block

/-! ## The blocks of a directory -/

section Blocks
variable {m : Mount} {inode : Buf}

def Slot.isHole : Slot → Bool
  | .hole => true
  | _ => false

/-- The blocks in front of the first hole. -/
def beforeHole (l : List Slot) : List Slot := l.takeWhile fun s => !s.isHole

/-- The blocks from the first hole on. -/
def behindHole (l : List Slot) : List Slot := l.dropWhile fun s => !s.isHole

/-- The blocks of a file from block `k` on. -/
def slotsFrom (m : Mount) (inode : Buf) (k n : Nat) : List Slot :=
  (List.range' k n).map (slotAt m inode)

theorem slotsFrom_succ (k n : Nat) :
    slotsFrom m inode k (n + 1) = slotAt m inode k :: slotsFrom m inode (k + 1) n := by
  unfold slotsFrom
  rw [List.range'_succ, List.map_cons]

theorem inUse_cons (blockSize : Nat) (s : Slot) (l : List Slot) :
    inUse blockSize (s :: l) = (s.entries blockSize).filter DirEntry.inUse ++ inUse blockSize l := by
  unfold inUse
  rw [List.flatMap_cons, List.filter_append]

theorem inUse_append (blockSize : Nat) (l l' : List Slot) :
    inUse blockSize (l ++ l') = inUse blockSize l ++ inUse blockSize l' := by
  unfold inUse
  rw [List.flatMap_append, List.filter_append]

/-- What a slot is, for a block number that is read. -/
theorem slotAt_cases (m : Mount) (inode : Buf) (idx : Nat) :
    (inodeGetBlock m inode (UInt32.ofNat idx) = 0 ∧ slotAt m inode idx = .hole) ∨
      inodeGetBlock m inode (UInt32.ofNat idx) ≠ 0 ∧
        ((ext2ReadBlock m (inodeGetBlock m inode (UInt32.ofNat idx)) = none ∧
            slotAt m inode idx = .unreadable) ∨
          ∃ b, ext2ReadBlock m (inodeGetBlock m inode (UInt32.ofNat idx)) = some b ∧
            slotAt m inode idx = .data b) := by
  unfold slotAt
  dsimp only
  by_cases hzero : inodeGetBlock m inode (UInt32.ofNat idx) = 0
  · exact Or.inl ⟨hzero, if_pos hzero⟩
  · rw [if_neg hzero]
    cases hread : ext2ReadBlock m (inodeGetBlock m inode (UInt32.ofNat idx)) with
    | none => exact Or.inr ⟨hzero, Or.inl ⟨rfl, rfl⟩⟩
    | some b => exact Or.inr ⟨hzero, Or.inr ⟨b, rfl, rfl⟩⟩

/-- The entries of a well-formed block. -/
theorem wellFormed_data {b : Buf} {blockSize : Nat} (h : (Slot.data b).WellFormed blockSize) :
    ∃ es, entriesFrom b blockSize blockSize 0 = some es ∧ (Slot.data b).entries blockSize = es ∧
      ∀ e ∈ es, e.ino ≠ 0 → IsName e.name := by
  obtain ⟨hsome, hnames⟩ := h
  obtain ⟨es, hes⟩ := Option.isSome_iff_exists.mp hsome
  have hget : (blockEntries b blockSize).getD [] = es := by rw [hes, Option.getD_some]
  rw [hget] at hnames
  exact ⟨es, hes, hget, hnames⟩

/-- The numbers of one turn of the loops over the blocks, when the directory is a number of
blocks long. -/
theorem block_turn {blockSize : Nat} (hsize : 0 < blockSize) :
    k * blockSize < (k + (n + 1)) * blockSize ∧ k * blockSize / blockSize = k ∧
      k * blockSize + blockSize = (k + 1) * blockSize ∧
      blockLimit blockSize ((k + 1 + n) * blockSize) (k * blockSize) = blockSize := by
  have hnext : k * blockSize + blockSize = (k + 1) * blockSize := (Nat.succ_mul k _).symm
  refine ⟨Nat.mul_lt_mul_of_pos_right (by omega) hsize, Nat.mul_div_cancel k hsize, hnext, ?_⟩
  apply if_neg
  rw [hnext, Nat.not_lt]
  exact Nat.mul_le_mul_right _ (Nat.le_add_right _ _)

theorem find?_inUse (name : Text) (es rest : List DirEntry) :
    ((es.filter DirEntry.inUse ++ rest).find? fun e => e.name = name) =
      (es.find? fun e => e.inUse && e.name = name).or (rest.find? fun e => e.name = name) := by
  rw [List.find?_append, List.find?_filter]
  simp only [Bool.decide_and, Bool.decide_eq_true]

/-- `dir_find` finds the first entry in use in front of the first hole. -/
theorem findFrom_eq (hzero : 0 ∉ name) (hlen : name.length ≤ 255) (hsize : 0 < m.blockSize.toNat)
    (hfuel : n ≤ fuel) (hwf : ∀ s ∈ slotsFrom m inode k n, s.WellFormed m.blockSize.toNat) :
    findFrom m inode name ((k + n) * m.blockSize.toNat) fuel (k * m.blockSize.toNat) =
      (((inUse m.blockSize.toNat (beforeHole (slotsFrom m inode k n))).find?
        fun e => e.name = name).map DirEntry.ino).getD 0 := by
  induction n generalizing k fuel with
  | zero =>
      cases fuel with
      | zero => rfl
      | succ fuel =>
          unfold findFrom
          dsimp only
          rw [if_neg (by rw [Nat.add_zero]; exact Nat.lt_irrefl _)]
          rfl
  | succ n ih =>
      obtain _ | fuel := fuel
      · cases hfuel
      obtain ⟨hlt, hdiv, hnext, hlimit⟩ := block_turn (k := k) (n := n) hsize
      have hend : k + (n + 1) = k + 1 + n := by omega
      rw [slotsFrom_succ] at hwf ⊢
      unfold findFrom beforeHole
      dsimp only
      rw [if_pos hlt, hdiv, hend]
      obtain ⟨hblk, hslot⟩ | ⟨hblk, ⟨hread, hslot⟩ | ⟨b, hread, hslot⟩⟩ := slotAt_cases m inode k
      · rw [if_pos hblk, hslot]
        rfl
      · have hbad := hwf _ List.mem_cons_self
        rw [hslot] at hbad
        exact hbad.elim
      · have hdata := hwf _ List.mem_cons_self
        rw [hslot] at hdata
        obtain ⟨es, hes, hentries, -⟩ := wellFormed_data hdata
        have hrest := ih (Nat.le_of_succ_le_succ hfuel) fun s hs =>
          hwf s (List.mem_cons_of_mem _ hs)
        rw [if_neg hblk, hread, hslot]
        dsimp only
        rw [if_neg (by rw [Nat.mul_mod_left]; exact fun h => h rfl), hlimit,
          findInBlock_eq hzero hlen hes, List.takeWhile_cons_of_pos rfl, inUse_cons, hentries,
          find?_inUse, hnext, hrest]
        cases es.find? fun e => e.inUse && e.name = name with
        | none => rfl
        | some e => rfl

/-- `ext2_ls` prints the entries in use, except `.` and `..`. -/
theorem lsFrom_eq (hsize : 0 < m.blockSize.toNat) (hfuel : n ≤ fuel)
    (hwf : ∀ s ∈ slotsFrom m inode k n, s.WellFormed m.blockSize.toNat) :
    lsFrom m inode ((k + n) * m.blockSize.toNat) fuel (k * m.blockSize.toNat) =
      ((inUse m.blockSize.toNat (slotsFrom m inode k n)).filter fun e => !e.isDots).map
        (lineOf m) := by
  induction n generalizing k fuel with
  | zero =>
      cases fuel with
      | zero => rfl
      | succ fuel =>
          unfold lsFrom
          dsimp only
          rw [if_neg (by rw [Nat.add_zero]; exact Nat.lt_irrefl _)]
          rfl
  | succ n ih =>
      obtain _ | fuel := fuel
      · cases hfuel
      obtain ⟨hlt, hdiv, hnext, hlimit⟩ := block_turn (k := k) (n := n) hsize
      have hend : k + (n + 1) = k + 1 + n := by omega
      rw [slotsFrom_succ] at hwf ⊢
      have hrest := ih (k := k + 1) (Nat.le_of_succ_le_succ hfuel) fun s hs =>
        hwf s (List.mem_cons_of_mem _ hs)
      unfold lsFrom
      dsimp only
      rw [if_pos hlt, hdiv, hend, hnext, hrest, inUse_cons, List.filter_append, List.map_append]
      obtain ⟨hblk, hslot⟩ | ⟨hblk, ⟨hread, hslot⟩ | ⟨b, hread, hslot⟩⟩ := slotAt_cases m inode k
      · rw [if_pos hblk, hslot]
        rfl
      · have hbad := hwf _ List.mem_cons_self
        rw [hslot] at hbad
        exact hbad.elim
      · have hdata := hwf _ List.mem_cons_self
        rw [hslot] at hdata
        obtain ⟨es, hes, hentries, hnames⟩ := wellFormed_data hdata
        have hfilter : (es.filter DirEntry.inUse).filter (fun e => !e.isDots) =
            es.filter DirEntry.listed := by
          rw [List.filter_filter]
          apply List.filter_congr
          intro e _
          exact Bool.and_comm _ _
        rw [if_neg hblk, hread, hslot]
        dsimp only
        rw [hlimit, lsBlock_eq m hes hnames, hentries, hfilter]

end Blocks

/-! ## Paths -/

section Paths
variable {m : Mount}

/-- What `resolve_path` makes of one component. Empty ones are skipped. -/
def nextDir (m : Mount) (cur : UInt32) (name : Text) : UInt32 :=
  if name = [] then cur else if 255 ≤ name.length then 0 else dirFind m cur name

theorem resolveFrom_nil (fuel : Nat) (cur : UInt32) : resolveFrom m fuel [] cur = cur := by
  cases fuel <;> rfl

theorem ne_slash (h : 0x2F ∉ name) : ∀ c ∈ name, decide (c ≠ 0x2F) = true :=
  fun _ hc => decide_eq_true fun hslash => h (hslash ▸ hc)

/-- A path of one component. -/
theorem resolveFrom_name (hslash : 0x2F ∉ name) (cur : UInt32) (hfuel : name.length ≤ fuel) :
    resolveFrom m fuel name cur = nextDir m cur name := by
  cases name with
  | nil => exact resolveFrom_nil fuel cur
  | cons c rest =>
      obtain _ | fuel := fuel
      · cases hfuel
      have htake : (c :: rest).takeWhile (· ≠ 0x2F) = c :: rest :=
        List.takeWhile_eq_self_iff.mpr (ne_slash hslash)
      have hdrop : (c :: rest).dropWhile (· ≠ 0x2F) = [] :=
        List.dropWhile_eq_nil_iff.mpr (ne_slash hslash)
      have hlen : (c :: rest).length ≠ 0 := Nat.succ_ne_zero _
      have hne : c :: rest ≠ [] := List.cons_ne_nil c rest
      unfold resolveFrom nextDir
      dsimp only
      rw [htake, hdrop, if_neg hlen, if_neg hne, List.tail_nil, resolveFrom_nil]
      split
      · rfl
      · split
        · exact Eq.symm ‹_›
        · rfl

/-- One turn, when there is a `/` behind the component. -/
theorem resolveFrom_slash {rest : Text} (hslash : 0x2F ∉ name) {cur : UInt32} (hcur : cur ≠ 0)
    (fuel : Nat) :
    resolveFrom m (fuel + 1) (name ++ 0x2F :: rest) cur =
      if nextDir m cur name = 0 then 0 else resolveFrom m fuel rest (nextDir m cur name) := by
  have htake : (name ++ 0x2F :: rest).takeWhile (· ≠ 0x2F) = name := by
    rw [List.takeWhile_append_of_pos (ne_slash hslash), List.takeWhile_cons_of_neg (by decide),
      List.append_nil]
  have hdrop : (name ++ 0x2F :: rest).dropWhile (· ≠ 0x2F) = 0x2F :: rest := by
    rw [List.dropWhile_append_of_pos (ne_slash hslash), List.dropWhile_cons_of_neg (by decide)]
  obtain ⟨c, p, hpath⟩ : ∃ c p, name ++ 0x2F :: rest = c :: p :=
    List.exists_cons_of_ne_nil (by simp)
  rw [hpath] at htake hdrop ⊢
  rw [resolveFrom, nextDir]
  dsimp only
  rw [htake, hdrop, List.tail_cons]
  cases name with
  | nil => rw [if_pos List.length_nil, if_pos rfl, if_neg hcur]
  | cons d name =>
      have hlen : (d :: name).length ≠ 0 := Nat.succ_ne_zero _
      have hne : d :: name ≠ [] := List.cons_ne_nil d name
      rw [if_neg hlen, if_neg hne]
      split
      · rw [if_pos rfl]
      · rfl

/-- One more component at the end of a path. -/
theorem resolveFrom_append (hname : 0x2F ∉ name) {p : Text} {cur : UInt32} (hcur : cur ≠ 0)
    {fuel' : Nat} (hfuel : p.length ≤ fuel) (hfuel' : p.length + name.length < fuel') :
    resolveFrom m fuel' (p ++ 0x2F :: name) cur =
      if resolveFrom m fuel p cur = 0 then 0
      else nextDir m (resolveFrom m fuel p cur) name := by
  induction fuel generalizing p cur fuel' with
  | zero =>
      obtain rfl : p = [] := List.eq_nil_of_length_eq_zero (Nat.le_zero.mp hfuel)
      obtain _ | fuel' := fuel'
      · omega
      rw [List.length_nil] at hfuel'
      have hskip : nextDir m cur [] = cur := if_pos rfl
      rw [resolveFrom_slash List.not_mem_nil hcur, resolveFrom_nil, hskip,
        resolveFrom_name hname cur (by omega)]
  | succ fuel ih =>
      obtain _ | fuel' := fuel'
      · omega
      by_cases hp : 0x2F ∈ p
      · obtain ⟨comp, rest, rfl, hcomp⟩ := List.eq_append_cons_of_mem hp
        rw [List.length_append, List.length_cons] at hfuel hfuel'
        rw [List.append_assoc, List.cons_append, resolveFrom_slash hcomp hcur,
          resolveFrom_slash hcomp hcur]
        by_cases hzero : nextDir m cur comp = 0
        · rw [if_pos hzero, if_pos hzero, if_pos rfl]
        · rw [if_neg hzero, if_neg hzero]
          exact ih hzero (by omega) (by omega)
      · rw [resolveFrom_slash hp hcur, resolveFrom_name hp cur hfuel]
        split
        · rfl
        · exact resolveFrom_name hname _ (by omega)

/-- The path of a name in a directory. -/
theorem resolvePath_append {path : Text} (hname : IsName name) (hpath : resolvePath m path ≠ 0) :
    resolvePath m (path ++ 0x2F :: name) = nextDir m (resolvePath m path) name := by
  obtain ⟨hne, -, hslash⟩ := hname
  have hroot : rootIno ≠ 0 := by decide
  have hlong : ¬ (path ++ 0x2F :: name = [] ∨ path ++ 0x2F :: name = [0x2F]) := by
    rintro (h | h)
    · exact absurd h (by simp)
    · have hlen := congrArg List.length h
      have hpos : 0 < name.length := List.length_pos_iff.mpr hne
      simp only [List.length_append, List.length_cons, List.length_nil] at hlen
      omega
  unfold resolvePath at hpath ⊢
  rw [if_neg hlong]
  have hstrip : path ≠ [] → stripSlash (path ++ 0x2F :: name) =
      stripSlash path ++ 0x2F :: name := by
    intro hpath
    obtain ⟨c, rest, rfl⟩ := List.exists_cons_of_ne_nil hpath
    unfold stripSlash
    rw [List.cons_append, List.head?_cons, List.head?_cons, List.tail_cons, List.tail_cons]
    split <;> rfl
  by_cases hempty : path = []
  · subst hempty
    rw [if_pos (Or.inl rfl), List.nil_append]
    exact resolveFrom_name hslash rootIno le_rfl
  · rw [hstrip hempty, List.length_append, List.length_cons]
    by_cases hone : path = [0x2F]
    · subst hone
      rw [if_pos (Or.inr rfl)]
      have hstrip : stripSlash [0x2F] = [] := rfl
      rw [hstrip, resolveFrom_append hslash hroot (Nat.zero_le 0) (by rw [List.length_nil]; omega),
        resolveFrom_nil, if_neg hroot]
    · rw [if_neg (not_or.mpr ⟨hempty, hone⟩)] at hpath ⊢
      rw [resolveFrom_append hslash hroot le_rfl (by omega), if_neg hpath]

end Paths

/-! ## What the walks agree on -/

/-- The names that the listing of a path shows, with `.` and `..`, are those that `dir_find`
finds in the directory, each at the inode that is printed, and each of them can be opened. -/
structure Agrees (m : Mount) (path : Text) (listing : List Line) : Prop where
  found : ∀ name, 0 ∉ name → name.length ≤ 255 →
    (dirFind m (resolvePath m path) name ≠ 0 ↔
      name ∈ listing.map Line.name ∨ name = dot ∨ name = dotdot)
  inode : ∀ l ∈ listing, dirFind m (resolvePath m path) l.name = l.ino
  opens : ∀ l ∈ listing, resolvePath m (path ++ 0x2F :: l.name) = l.ino

/-- No entry in use lies behind a hole, and no name in use has 255 bytes. -/
structure Clear (m : Mount) (inode : Buf) : Prop where
  hole : inUse m.blockSize.toNat (behindHole (slots m inode)) = []
  short : ∀ e ∈ inUse m.blockSize.toNat (slots m inode), e.name.length < 255

namespace WellFormedDir
variable {m : Mount} {dirIno : UInt32} {inode : Buf}

theorem ne_zero (h : WellFormedDir m dirIno inode) : dirIno ≠ 0 := by
  rintro rfl
  have hread := h.read
  unfold readInode at hread
  rw [if_pos (Or.inl rfl)] at hread
  cases hread

theorem slots_eq (m : Mount) (inode : Buf) : Ext2.slots m inode =
    slotsFrom m inode 0 ((inodeFileSize inode).toNat / m.blockSize.toNat) := by
  unfold Ext2.slots slotsFrom
  rw [List.range_eq_range']

/-- The numbers that both loops start with. -/
theorem start (h : WellFormedDir m dirIno inode) : (inodeFileSize inode).toNat =
    (0 + (inodeFileSize inode).toNat / m.blockSize.toNat) * m.blockSize.toNat ∧
      (inodeFileSize inode).toNat / m.blockSize.toNat ≤ (inodeFileSize inode).toNat := by
  rw [Nat.zero_add, Nat.div_mul_cancel h.size]
  exact ⟨rfl, Nat.div_le_self _ _⟩

theorem dirFind_eq (h : WellFormedDir m dirIno inode) (hzero : 0 ∉ name)
    (hlen : name.length ≤ 255) : dirFind m dirIno name =
      (((inUse m.blockSize.toNat (beforeHole (Ext2.slots m inode))).find?
        fun e => e.name = name).map DirEntry.ino).getD 0 := by
  obtain ⟨hsize, hfuel⟩ := h.start
  have hwf := h.slots
  rw [slots_eq] at hwf ⊢
  have hrun := findFrom_eq hzero hlen h.blockSize hfuel hwf
  rw [← hsize, Nat.zero_mul] at hrun
  unfold dirFind
  rw [h.read]
  dsimp only
  rw [if_neg (not_not.mpr h.dir), hrun]

theorem ext2Ls_eq {path : Text} (h : WellFormedDir m (resolvePath m path) inode) :
    ext2Ls (some m) path = .ok
      (((inUse m.blockSize.toNat (Ext2.slots m inode)).filter fun e => !e.isDots).map
        (lineOf m)) := by
  obtain ⟨hsize, hfuel⟩ := h.start
  have hwf := h.slots
  rw [slots_eq] at hwf ⊢
  have hrun := lsFrom_eq h.blockSize hfuel hwf
  rw [← hsize, Nat.zero_mul] at hrun
  unfold ext2Ls
  dsimp only
  rw [if_neg h.ne_zero, h.read]
  dsimp only
  rw [if_neg (not_not.mpr h.dir), hrun]

theorem inUse_split (m : Mount) (inode : Buf) : inUse m.blockSize.toNat (Ext2.slots m inode) =
    inUse m.blockSize.toNat (beforeHole (Ext2.slots m inode)) ++
      inUse m.blockSize.toNat (behindHole (Ext2.slots m inode)) := by
  rw [← inUse_append, beforeHole, behindHole, List.takeWhile_append_dropWhile]

/-- `.` and `..` are in front of the first hole. -/
theorem dots_before (h : WellFormedDir m dirIno inode) (hname : name ∈ [dot, dotdot]) :
    name ∈ (inUse m.blockSize.toNat (beforeHole (Ext2.slots m inode))).map DirEntry.name := by
  have hdots := h.dots name hname
  revert hdots
  cases Ext2.slots m inode with
  | nil => exact id
  | cons s l =>
      intro hdots
      rw [List.take_succ_cons, List.take_zero] at hdots
      cases s with
      | hole => exact absurd hdots List.not_mem_nil
      | unreadable => exact absurd hdots List.not_mem_nil
      | data b =>
          unfold beforeHole
          rw [List.takeWhile_cons_of_pos rfl, inUse_cons, List.map_append]
          rw [inUse_cons, List.map_append] at hdots
          exact List.mem_append_left _ (by simpa [inUse] using hdots)

/-- An entry in use in a well-formed directory. -/
theorem name_of_mem (h : WellFormedDir m dirIno inode) {e : DirEntry}
    (he : e ∈ inUse m.blockSize.toNat (Ext2.slots m inode)) : e.ino ≠ 0 ∧ IsName e.name := by
  obtain ⟨hmem, huse⟩ := List.mem_filter.mp he
  have hino : e.ino ≠ 0 := of_decide_eq_true huse
  obtain ⟨s, hs, hes⟩ := List.mem_flatMap.mp hmem
  have hwf := h.slots s hs
  cases s with
  | hole => exact absurd hes List.not_mem_nil
  | unreadable => exact hwf.elim
  | data b =>
      obtain ⟨es, -, hentries, hnames⟩ := wellFormed_data hwf
      rw [hentries] at hes
      exact ⟨hino, hnames e hes hino⟩

end WellFormedDir

section Listing
variable {m : Mount} {path : Text} {inode : Buf}

/-- The lines that `ext2_ls` prints for a well-formed directory. -/
def listingOf (m : Mount) (inode : Buf) : List Line :=
  ((inUse m.blockSize.toNat (slots m inode)).filter fun e => !e.isDots).map (lineOf m)

theorem mem_listingOf {l : Line} : l ∈ listingOf m inode ↔
    ∃ e ∈ inUse m.blockSize.toNat (slots m inode), e.isDots = false ∧ lineOf m e = l := by
  unfold listingOf
  rw [List.mem_map]
  constructor
  · rintro ⟨e, he, hl⟩
    obtain ⟨hmem, hdots⟩ := List.mem_filter.mp he
    exact ⟨e, hmem, Bool.not_eq_true' _ ▸ hdots, hl⟩
  · rintro ⟨e, hmem, hdots, hl⟩
    exact ⟨e, List.mem_filter.mpr ⟨hmem, by rw [hdots]; rfl⟩, hl⟩

theorem isDots_iff {e : DirEntry} : e.isDots = true ↔ e.name = dot ∨ e.name = dotdot := by
  unfold DirEntry.isDots
  rw [Bool.or_eq_true, decide_eq_true_iff, decide_eq_true_iff]

/-- A name that is found belongs to an entry in front of the first hole. -/
theorem found_iff (h : WellFormedDir m (resolvePath m path) inode) (hzero : 0 ∉ name)
    (hlen : name.length ≤ 255) : dirFind m (resolvePath m path) name ≠ 0 ↔
      name ∈ (inUse m.blockSize.toNat (beforeHole (slots m inode))).map DirEntry.name := by
  rw [h.dirFind_eq hzero hlen, List.mem_map]
  cases hfind : (inUse m.blockSize.toNat (beforeHole (slots m inode))).find?
      fun e => e.name = name with
  | none =>
      have hnone := List.find?_eq_none.mp hfind
      constructor
      · intro hne
        exact absurd rfl hne
      · rintro ⟨e, he, hname⟩
        exact absurd (decide_eq_true hname) (hnone e he)
  | some e =>
      have hmem := List.mem_of_find?_eq_some hfind
      have hpred := List.find?_some hfind
      have hname : e.name = name := of_decide_eq_true hpred
      have hsplit := WellFormedDir.inUse_split m inode
      have hino := (h.name_of_mem (hsplit ▸ List.mem_append_left _ hmem)).1
      exact ⟨fun _ => ⟨e, hmem, hname⟩, fun _ => hino⟩

/-- In front of the first hole an entry is found at its inode. -/
theorem dirFind_of_mem (h : WellFormedDir m (resolvePath m path) inode) {e : DirEntry}
    (he : e ∈ inUse m.blockSize.toNat (beforeHole (slots m inode))) (hlen : e.name.length ≤ 255) :
    dirFind m (resolvePath m path) e.name = e.ino := by
  have hsplit := WellFormedDir.inUse_split m inode
  have hnames := (h.name_of_mem (hsplit ▸ List.mem_append_left _ he)).2
  rw [h.dirFind_eq hnames.2.1 hlen]
  have hnodup := h.nodup
  rw [hsplit, List.map_append] at hnodup
  have hbefore := hnodup.of_append_left
  cases hfind : (inUse m.blockSize.toNat (beforeHole (slots m inode))).find?
      fun e' => e'.name = e.name with
  | none => exact absurd (decide_eq_true rfl) (List.find?_eq_none.mp hfind e he)
  | some e' =>
      have hpred := List.find?_some hfind
      have hsame : e' = e := List.inj_on_of_nodup_map hbefore
        (List.mem_of_find?_eq_some hfind) he (of_decide_eq_true hpred)
      rw [hsame]
      rfl

theorem agrees_of_clear (h : WellFormedDir m (resolvePath m path) inode) (hclear : Clear m inode) :
    Agrees m path (listingOf m inode) := by
  have hall : inUse m.blockSize.toNat (slots m inode) =
      inUse m.blockSize.toNat (beforeHole (slots m inode)) := by
    rw [WellFormedDir.inUse_split, hclear.hole, List.append_nil]
  refine ⟨?_, ?_, ?_⟩
  · intro name hzero hlen
    rw [found_iff h hzero hlen, List.mem_map, List.mem_map]
    constructor
    · rintro ⟨e, he, rfl⟩
      cases hdots : e.isDots with
      | true => exact Or.inr (isDots_iff.mp hdots)
      | false => exact Or.inl ⟨lineOf m e, mem_listingOf.mpr ⟨e, hall ▸ he, hdots, rfl⟩, rfl⟩
    · rintro (⟨l, hl, rfl⟩ | hname | hname)
      · obtain ⟨e, he, -, rfl⟩ := mem_listingOf.mp hl
        exact ⟨e, hall ▸ he, rfl⟩
      · exact hname ▸ List.mem_map.mp (h.dots_before (List.mem_cons_self))
      · exact hname ▸ List.mem_map.mp (h.dots_before (List.mem_cons_of_mem _ List.mem_cons_self))
  · intro l hl
    obtain ⟨e, he, -, rfl⟩ := mem_listingOf.mp hl
    exact dirFind_of_mem h (hall ▸ he) (Nat.le_of_lt (hclear.short e he))
  · intro l hl
    obtain ⟨e, he, -, rfl⟩ := mem_listingOf.mp hl
    have hname := (h.name_of_mem he).2
    have hshort := hclear.short e he
    change resolvePath m (path ++ 0x2F :: e.name) = e.ino
    rw [resolvePath_append hname h.ne_zero, nextDir, if_neg hname.1, if_neg (Nat.not_le.mpr hshort)]
    exact dirFind_of_mem h (hall ▸ he) (Nat.le_of_lt hshort)

theorem clear_of_agrees (h : WellFormedDir m (resolvePath m path) inode)
    (hagrees : Agrees m path (listingOf m inode)) : Clear m inode := by
  have hshort : ∀ e ∈ inUse m.blockSize.toNat (slots m inode), e.name.length < 255 := by
    intro e he
    obtain ⟨hino, hname⟩ := h.name_of_mem he
    cases hdots : e.isDots with
    | true =>
        obtain hd | hd := isDots_iff.mp hdots
        · rw [hd]
          decide
        · rw [hd]
          decide
    | false =>
        by_contra hlong
        have hopen := hagrees.opens _ (mem_listingOf.mpr ⟨e, he, hdots, rfl⟩)
        change resolvePath m (path ++ 0x2F :: e.name) = e.ino at hopen
        rw [resolvePath_append hname h.ne_zero, nextDir, if_neg hname.1,
          if_pos (Nat.not_lt.mp hlong)] at hopen
        exact hino hopen.symm
  refine ⟨?_, hshort⟩
  rw [List.eq_nil_iff_forall_not_mem]
  intro e he
  have hsplit := WellFormedDir.inUse_split m inode
  have hmem : e ∈ inUse m.blockSize.toNat (slots m inode) :=
    hsplit ▸ List.mem_append_right _ he
  obtain ⟨hino, hname⟩ := h.name_of_mem hmem
  have hnodup := h.nodup
  rw [hsplit, List.map_append] at hnodup
  have hnot : e.name ∉ (inUse m.blockSize.toNat (beforeHole (slots m inode))).map DirEntry.name :=
    fun hbefore => (List.disjoint_of_nodup_append hnodup) hbefore (List.mem_map_of_mem he)
  cases hdots : e.isDots with
  | true =>
      obtain hd | hd := isDots_iff.mp hdots
      · exact hnot (hd ▸ h.dots_before List.mem_cons_self)
      · exact hnot (hd ▸ h.dots_before (List.mem_cons_of_mem _ List.mem_cons_self))
  | false =>
      have hfound := hagrees.inode _ (mem_listingOf.mpr ⟨e, hmem, hdots, rfl⟩)
      apply hnot
      rw [← found_iff h hname.2.1 (Nat.le_of_lt (hshort e hmem))]
      exact fun hzero => hino (hfound.symm.trans hzero)

/-- **Directories.** For a path that leads to a well-formed directory, the names that
`ext2_ls` prints are those that `dir_find` and `resolve_path` find, exactly when no entry in
use lies behind a hole and no name in use has 255 bytes. -/
theorem agrees_iff (h : WellFormedDir m (resolvePath m path) inode) :
    (∃ listing, ext2Ls (some m) path = .ok listing ∧ Agrees m path listing) ↔ Clear m inode := by
  rw [h.ext2Ls_eq]
  constructor
  · rintro ⟨listing, hls, hagrees⟩
    obtain rfl : listingOf m inode = listing := Except.ok.inj hls
    exact clear_of_agrees h hagrees
  · intro hclear
    exact ⟨listingOf m inode, rfl, agrees_of_clear h hclear⟩

end Listing

/-! ## Two images -/

/-- The bytes other than 0 of an image with 1 KiB blocks: the superblock in block 1, the
group descriptor in block 2, the inodes from block 5 on, `.` and `..` in block 10 and a file
`a` in block 11. The root directory has the given blocks. -/
def imageBytes (rootBlocks : List UInt8) : List (Nat × List UInt8) :=
  [(1024 + 40, [16]), (1024 + 56, [0x53, 0xEF]), (2048 + 8, [5]),
    (5 * 1024 + 128, [0xED, 0x41, 0, 0, 0, 4 * UInt8.ofNat rootBlocks.length]),
    (5 * 1024 + 168, rootBlocks.flatMap fun blk => [blk, 0, 0, 0]),
    (10 * 1024, [2, 0, 0, 0, 12, 0, 1, 2, 0x2E]),
    (10 * 1024 + 12, [2, 0, 0, 0, 0xF4, 3, 2, 2, 0x2E, 0x2E]),
    (11 * 1024, [12, 0, 0, 0, 0, 4, 1, 1, 0x61])]

def imageByte (bytes : List (Nat × List UInt8)) (p : Nat) : UInt8 :=
  match bytes with
  | [] => 0
  | (start, run) :: rest =>
      if start ≤ p ∧ p < start + run.length then run.getD (p - start) 0 else imageByte rest p

def image (rootBlocks : List UInt8) : Disk :=
  ⟨true, fun lba => some fun p => imageByte (imageBytes rootBlocks) (lba.toNat * 512 + p)⟩

def imageMount (rootBlocks : List UInt8) : Mount := ⟨image rootBlocks, 1024, 16, 128, 2⟩

def rootInode (rootBlocks : List UInt8) : Buf :=
  (readInode (imageMount rootBlocks) 2).getD fun _ => 0

theorem root_wellFormed : WellFormedDir (imageMount [10, 11])
    (resolvePath (imageMount [10, 11]) [0x2F]) (rootInode [10, 11]) where
  read := rfl
  dir := by decide
  blockSize := by decide
  size := by decide
  slots := by decide
  nodup := by decide
  dots := by decide

/-- The root directory with a hole between its blocks. -/
theorem sparse_wellFormed : WellFormedDir (imageMount [10, 0, 11])
    (resolvePath (imageMount [10, 0, 11]) [0x2F]) (rootInode [10, 0, 11]) where
  read := rfl
  dir := by decide
  blockSize := by decide
  size := by decide
  slots := by decide
  nodup := by decide
  dots := by decide

theorem agrees_iff_image :
    (∃ listing, ext2Ls (some (imageMount [10, 11])) [0x2F] = .ok listing ∧
      Agrees (imageMount [10, 11]) [0x2F] listing) ↔
      Clear (imageMount [10, 11]) (rootInode [10, 11]) :=
  agrees_iff root_wellFormed

/-- Behind a hole `ext2_ls` prints the name `a`, which `dir_find` does not find. -/
theorem name_behind_hole : ¬ ∀ (disk : Disk) (m : Mount) (path : Text) (inode : Buf),
    ext2Mount disk = some m → WellFormedDir m (resolvePath m path) inode →
      ∃ listing, ext2Ls (some m) path = .ok listing ∧ Agrees m path listing := by
  intro h
  obtain ⟨listing, hls, hagrees⟩ := h (image [10, 0, 11]) (imageMount [10, 0, 11]) [0x2F]
    (rootInode [10, 0, 11]) rfl sparse_wellFormed
  have hok : ext2Ls (some (imageMount [10, 0, 11])) [0x2F] =
      .ok (listingOf (imageMount [10, 0, 11]) (rootInode [10, 0, 11])) :=
    WellFormedDir.ext2Ls_eq sparse_wellFormed
  obtain rfl := Except.ok.inj (hok.symm.trans hls)
  have hclear : Clear (imageMount [10, 0, 11]) (rootInode [10, 0, 11]) :=
    clear_of_agrees sparse_wellFormed hagrees
  exact absurd (congrArg List.length hclear.hole) (by decide)

end OriaOS.Ext2
