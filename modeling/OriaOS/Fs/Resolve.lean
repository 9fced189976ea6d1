import OriaOS.Fs.Links
import OriaOS.Lib.Chain

/-!
# Resolving symbolic links

`mfs4_resolve` looks a path up and follows the link found there, at most `max_depth`
times, and gives the empty path when it has run out of look-ups. The look-up that would
tell that the last link has led to its goal is not made. `mfs4_stat` looks the result up
like any other path.

The chain of a path is what its links say. The inode table may hold anything.
-/

namespace OriaOS.Fs

open OriaOS.Lib

/-- The loop of `mfs4_resolve` with `n` turns left. -/
def resolveLoop (s : Mfs4) : Nat → CString → CString
  | 0, _ => CString.empty
  | n + 1, resolved =>
      match findInode s resolved with
      | none => resolved
      | some i =>
          if (s.inodes i).type ≠ typeSymlink then resolved
          else resolveLoop s n (storedPath (targetStr s i))

/-- `mfs4_resolve`. -/
def mfs4Resolve (s : Mfs4) (path : CString) (maxDepth : Nat) : CString :=
  resolveLoop s maxDepth (storedPath path)

/-- `fs_get_perms`. -/
def fsGetPerms (s : Mfs3) (name : CString) : UInt16 :=
  match firstSlot s.files (·.named name) with
  | some i => (s.files i).perms
  | none => 0

structure MFS4Stat where
  type : UInt8
  size : UInt32
  ctime : UInt32
  mtime : UInt32
  perms : UInt16

/-- What `mfs4_stat` stores for an inode. -/
def statOf (s : FileSys) (i : Node) : MFS4Stat :=
  let nd := s.mfs.inodes i
  let out : MFS4Stat := ⟨nd.type, 0, nd.ctime, nd.mtime, 0⟩
  if nd.type = typeFile then
    { out with
      size := ((fsReadBin s.fs (targetStr s.mfs i)).map Prod.snd).getD 0
      perms := fsGetPerms s.fs (targetStr s.mfs i) }
  else if nd.type = typeDir then { out with perms := permDir ||| permRead }
  else out

/-- `mfs4_stat`. -/
def mfs4Stat (s : FileSys) (path : CString) : Option MFS4Stat :=
  (findInode s.mfs (mfs4Resolve s.mfs path 8)).map (statOf s)

/-! ## What a path stands for -/

/-- Where the symbolic link at a path leads. -/
def linkOf (s : Mfs4) (path : CString) : Option CString :=
  (findInode s path).bind fun i =>
    if (s.inodes i).type = typeSymlink then some (storedPath (targetStr s i)) else none

/-- The result of a resolution is the end of a chain of at most `d` links, and empty for
every other chain. -/
structure ResolvedIn (s : Mfs4) (path : CString) (d : Nat) (result : CString) : Prop where
  ended : ∀ n, n ≤ d → ∀ goal, EndsIn (linkOf s) path n goal → result = goal
  failed : (∀ n, n ≤ d → ∀ goal, ¬ EndsIn (linkOf s) path n goal) → result = CString.empty

/-- A path is resolved as its chain says, its status is refused when the chain never ends,
and is never that of a link. -/
structure FollowsLinks (s : FileSys) (path : CString) (d : Nat) : Prop where
  resolve : ResolvedIn s.mfs path d (mfs4Resolve s.mfs path d)
  endless : Endless (linkOf s.mfs) path → mfs4Stat s path = none
  noLink : ∀ out, mfs4Stat s path = some out → out.type ≠ typeSymlink

/-! ## The loop -/

section Loop
variable {s : Mfs4} {path goal : CString} {n d : Nat}

/-- One turn of the loop, in terms of links. -/
theorem resolveLoop_succ (s : Mfs4) (n : Nat) (path : CString) :
    resolveLoop s (n + 1) path =
      match linkOf s path with
      | none => path
      | some target => resolveLoop s n target := by
  rw [resolveLoop, linkOf]
  cases findInode s path with
  | none => rfl
  | some i =>
      by_cases htype : (s.inodes i).type = typeSymlink
      · simp [htype]
      · simp [htype]

/-- A chain shorter than the number of turns is followed to its end. -/
theorem resolveLoop_of_endsIn (h : EndsIn (linkOf s) path n goal) (hn : n < d) :
    resolveLoop s d path = goal := by
  induction n generalizing path d with
  | zero =>
      obtain rfl : path = goal := Option.some.inj h.1
      obtain ⟨k, rfl⟩ : ∃ k, d = k + 1 := ⟨d - 1, by omega⟩
      rw [resolveLoop_succ, h.2]
  | succ n ih =>
      obtain ⟨k, rfl⟩ : ∃ k, d = k + 1 := ⟨d - 1, by omega⟩
      cases hlink : linkOf s path with
      | none => cases (h.of_stop hlink).1
      | some target =>
          rw [resolveLoop_succ, hlink]
          exact ih ((endsIn_link hlink).mp h) (by omega)

/-- A chain with at least as many links uses up all turns. -/
theorem resolveLoop_of_follow (h : follow (linkOf s) d path ≠ none) :
    resolveLoop s d path = CString.empty := by
  induction d generalizing path with
  | zero => rfl
  | succ d ih =>
      cases hlink : linkOf s path with
      | none => exact absurd (follow_stop hlink d) h
      | some target =>
          rw [follow_link hlink] at h
          rw [resolveLoop_succ, hlink]
          exact ih h

end Loop

/-- A chain has ended before `d` links, or has that many. -/
theorem ended_or_follow {s : Mfs4} (d : Nat) (path : CString) :
    (∃ n goal, n < d ∧ EndsIn (linkOf s) path n goal) ∨ follow (linkOf s) d path ≠ none := by
  induction d generalizing path with
  | zero => exact Or.inr (by simp [follow])
  | succ d ih =>
      cases hlink : linkOf s path with
      | none => exact Or.inl ⟨0, path, by omega, endsIn_zero hlink⟩
      | some target =>
          rw [follow_link hlink]
          refine (ih target).imp_left ?_
          rintro ⟨n, goal, hn, hend⟩
          exact ⟨n + 1, goal, by omega, (endsIn_link hlink).mpr hend⟩

/-- No link leads on from a path whose inode is no link. -/
theorem type_of_linkOf_none {s : Mfs4} {path : CString} {i : Node} (h : linkOf s path = none)
    (hi : findInode s path = some i) : (s.inodes i).type ≠ typeSymlink := by
  intro htype
  rw [linkOf, hi, Option.bind_some, if_pos htype] at h
  cases h

/-! ## The status of a path -/

theorem statOf_type (s : FileSys) (i : Node) : (statOf s i).type = (s.mfs.inodes i).type := by
  unfold statOf
  dsimp only
  split_ifs <;> rfl

/-- The chain has not exactly as many links as the limit, unless it ends at the empty path,
and no inode with the empty path stands where a failed resolution is looked up. -/
structure ChainFits (s : Mfs4) (path : CString) (d : Nat) : Prop where
  length : ∀ goal, EndsIn (linkOf s) path d goal → goal = CString.empty
  endless : Endless (linkOf s) path → findInode s CString.empty = none
  noLink : follow (linkOf s) 8 path ≠ none →
    ∀ i, findInode s CString.empty = some i → (s.inodes i).type ≠ typeSymlink

/-- A path is resolved as its chain says exactly when the chain does not end at the limit
and nothing stands at the empty path. -/
theorem follows_links_iff {s : FileSys} {path : CString} (hlen : path.length ≤ pathLen - 1)
    (d : Nat) : FollowsLinks s path d ↔ ChainFits s.mfs path d := by
  have hresolve (n : Nat) : mfs4Resolve s.mfs path n = resolveLoop s.mfs n path := by
    rw [mfs4Resolve, storedPath_of_le hlen]
  have hlong (h : follow (linkOf s.mfs) 8 path ≠ none) :
      mfs4Resolve s.mfs path 8 = CString.empty := (hresolve 8).trans (resolveLoop_of_follow h)
  constructor
  · intro h
    constructor
    · intro goal hend
      have hused : follow (linkOf s.mfs) d path ≠ none := by
        rw [hend.1]
        exact Option.some_ne_none goal
      rw [← h.resolve.ended d (Nat.le_refl d) goal hend, hresolve, resolveLoop_of_follow hused]
    · intro hend
      have hstat := h.endless hend
      rwa [mfs4Stat, Option.map_eq_none_iff, hlong (hend 8)] at hstat
    · intro h8 i hi
      rw [← hlong h8] at hi
      rw [← statOf_type]
      exact h.noLink (statOf s i) (by rw [mfs4Stat, hi, Option.map_some])
  · intro h
    constructor
    · constructor
      · intro n hn goal hend
        rcases Nat.lt_or_eq_of_le hn with hlt | rfl
        · rw [hresolve, resolveLoop_of_endsIn hend hlt]
        · have hused : follow (linkOf s.mfs) n path ≠ none := by
            rw [hend.1]
            exact Option.some_ne_none goal
          rw [hresolve, resolveLoop_of_follow hused, h.length goal hend]
      · intro hnone
        rcases ended_or_follow (s := s.mfs) d path with ⟨n, goal, hn, hend⟩ | hused
        · exact absurd hend (hnone n (by omega) goal)
        · rw [hresolve, resolveLoop_of_follow hused]
    · intro hend
      rw [mfs4Stat, Option.map_eq_none_iff, hlong (hend 8)]
      exact h.endless hend
    · intro out hout
      obtain ⟨i, hi, rfl⟩ := Option.map_eq_some_iff.mp hout
      rw [statOf_type]
      rcases ended_or_follow (s := s.mfs) 8 path with ⟨n, goal, hn, hend⟩ | h8
      · rw [hresolve, resolveLoop_of_endsIn hend hn] at hi
        exact type_of_linkOf_none hend.2 hi
      · rw [hlong h8] at hi
        exact h.noLink h8 i hi

theorem goalName_nonzero : (0 : UInt8) ∉ [98] := by decide

/-- One link, from `a` to a path that is no link. -/
def oneLink : FileSys :=
  { emptyFs with mfs := (mfs4Symlink emptyFs.mfs nameA ⟨[98], goalName_nonzero⟩ 0).1 }

theorem oneLink_goal : EndsIn (linkOf oneLink.mfs) nameA 1 ⟨[98], by decide⟩ := by
  constructor
  · decide +kernel
  · decide +kernel

theorem follows_links_one_link : FollowsLinks oneLink nameA 8 := by
  have h8 : follow (linkOf oneLink.mfs) 8 nameA = none := by decide +kernel
  apply (follows_links_iff (by decide) 8).mpr
  constructor
  · intro goal hend
    rw [hend.1] at h8
    cases h8
  · exact fun hend => absurd h8 (hend 8)
  · exact fun hused => absurd h8 hused

/-- The one link is not followed to its goal by a resolution that may follow one. -/
theorem last_link_not_followed : ¬ ∀ (s : FileSys) (path : CString) (d : Nat),
    path.length ≤ pathLen - 1 → FollowsLinks s path d := by
  intro h
  have hgoal := (h oneLink nameA 1 (by decide)).resolve.ended 1 (Nat.le_refl 1) _ oneLink_goal
  have hempty : mfs4Resolve oneLink.mfs nameA 1 = CString.empty := by decide +kernel
  exact absurd (hempty.symm.trans hgoal) (by decide)

end OriaOS.Fs
