import Mathlib.Data.List.Basic

/-!
# Keys and paths of the realtime database

`FValidation` decides which strings are keys and which are path strings;
`FPath` splits a path string at its slashes and drops the empty pieces. A
reference is the list of the pieces from the root of the database.
-/

namespace ShopingList

/-- The exceptions the program can raise. -/
inductive NSException where
  /-- `NSInvalidArgumentException`: a nil key or object, or an unrecognized selector. -/
  | invalidArgument
  /-- `NSRangeException` of `objectAtIndexedSubscript:`. -/
  | range
  /-- `InvalidPathValidation` of `child:`. -/
  | invalidPath
  /-- `InvalidFirebaseData` of `setValue:`. -/
  | invalidData
  /-- `NSInvalidArgumentException` of `fromDictionary:withComparator:`, for keys with one place. -/
  | sameOrdering
  deriving DecidableEq, Repr

namespace FValidation

def kInvalidPathCharacters : List Char := ['[', ']', '.', '#', '$']

def kInvalidKeyCharacters : List Char := ['[', ']', '.', '#', '$', '/']

/-- `rangeOfCharacterFromSet:` finds nothing. -/
def hasNone (bad : List Char) (s : String) : Bool := s.toList.all fun c => !bad.contains c

def isValidPathString : Option String → Bool
  | none => false
  | some pathString => pathString ≠ "" && hasNone kInvalidPathCharacters pathString

def isValidKey (key : String) : Bool := key ≠ "" && hasNone kInvalidKeyCharacters key

end FValidation

open FValidation

namespace FPath

/-- The non-empty pieces between the slashes. -/
def pieces (s : String) : List String :=
  ((s.toList.splitOn '/').filter (· ≠ [])).map String.ofList

end FPath

/-- `child:` below a reference that is not the root. -/
def child (path : List String) (pathString : Option String) : Except NSException (List String) :=
  match pathString with
  | some s => if isValidPathString (some s) then .ok (path ++ FPath.pieces s) else .error .invalidPath
  | none => .error .invalidPath

theorem hasNone_path_of_key {s : String} (h : hasNone kInvalidKeyCharacters s) :
    hasNone kInvalidPathCharacters s := by
  simp only [hasNone, List.all_eq_true, Bool.not_eq_true', List.contains_eq_mem,
    decide_eq_false_iff_not] at h ⊢
  intro c hc hm
  refine h c hc ?_
  have : kInvalidKeyCharacters = kInvalidPathCharacters ++ ['/'] := rfl
  rw [this]
  exact List.mem_append_left _ hm

theorem isValidPathString_of_isValidKey {s : String} (h : isValidKey s) :
    isValidPathString (some s) := by
  simp only [isValidKey, Bool.and_eq_true] at h
  simp only [isValidPathString, Bool.and_eq_true]
  exact ⟨h.1, hasNone_path_of_key h.2⟩

theorem slash_notMem_of_isValidKey {s : String} (h : isValidKey s) : '/' ∉ s.toList := by
  intro hm
  simp only [isValidKey, Bool.and_eq_true, hasNone, List.all_eq_true] at h
  have := h.2 _ hm
  revert this
  decide

theorem isValidKey_iff {s : String} :
    isValidKey s = true ↔ isValidPathString (some s) = true ∧ '/' ∉ s.toList := by
  refine ⟨fun h => ⟨isValidPathString_of_isValidKey h, slash_notMem_of_isValidKey h⟩, ?_⟩
  rintro ⟨h, hslash⟩
  simp only [isValidPathString, isValidKey, Bool.and_eq_true, hasNone, List.all_eq_true,
    Bool.not_eq_true', List.contains_eq_mem, decide_eq_false_iff_not] at h ⊢
  refine ⟨h.1, fun c hc hm => ?_⟩
  have hsplit : kInvalidKeyCharacters = kInvalidPathCharacters ++ ['/'] := rfl
  rw [hsplit] at hm
  rcases List.mem_append.1 hm with hm | hm
  · exact h.2 c hc hm
  · rw [List.mem_singleton.1 hm] at hc
    exact hslash hc

theorem FPath.pieces_of_isValidKey {s : String} (h : isValidKey s) : FPath.pieces s = [s] := by
  have hslash := slash_notMem_of_isValidKey h
  simp only [isValidKey, Bool.and_eq_true, decide_eq_true_eq] at h
  obtain ⟨hne, -⟩ := h
  have hsplit : s.toList.splitOn '/' = [s.toList] := by
    rw [List.splitOn]
    refine List.splitOnP_eq_singleton fun c hc => ?_
    rw [beq_eq_false_iff_ne]
    rintro rfl
    exact hslash hc
  have hnil : s.toList ≠ [] := by
    intro h0
    exact hne (String.toList_eq_nil_iff.1 h0)
  rw [pieces, hsplit]
  simp [hnil]

/-- A legal key is one step down. -/
theorem child_of_isValidKey {path : List String} {s : String} (h : isValidKey s) :
    child path (some s) = .ok (path ++ [s]) := by
  rw [child, if_pos (isValidPathString_of_isValidKey h), FPath.pieces_of_isValidKey h]

theorem child_ok {path p : List String} {s : Option String} (h : child path s = .ok p) :
    ∃ n, s = some n ∧ p = path ++ FPath.pieces n := by
  cases s with
  | none => cases h
  | some n =>
    rw [child] at h
    split at h
    · cases h
      exact ⟨n, rfl, rfl⟩
    · cases h

theorem isValidPathString_of_child {path p : List String} {s : Option String}
    (h : child path s = .ok p) : isValidPathString s = true := by
  cases s with
  | none => cases h
  | some n =>
    rw [child] at h
    split at h
    · assumption
    · cases h

end ShopingList
