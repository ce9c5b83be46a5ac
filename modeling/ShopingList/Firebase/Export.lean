import ShopingList.Firebase.Stored
import Mathlib.Data.List.Basic

/-!
# Nodes as values

`valForExport:` turns a node into strings, dictionaries and arrays, for the wire and for
`snapshot.value`; `internalNodeFrom:` turns such a value into a node. Children whose
keys are small numbers become an array with `NSNull` in its gaps. A node that can be
stored comes back from either form (`internalNodeFrom_valForExport`): an index is
written as the key it was read from (`repr_of_integerKey`). On dictionaries of texts that
are neither too deep nor too long it is `nodeFrom` (`internalNodeFrom_ok_iff`).
-/

namespace ShopingList

open FValidation

/-- The values a node is made from, without numbers. The keys of a dictionary differ. -/
inductive NSValue where
  | null
  | string (value : String)
  | array (objects : List NSValue)
  | dictionary (entries : List (String × NSValue))

/-- The exceptions of `internalNodeFrom:`. -/
inductive InvalidFirebaseData where
  /-- "Max object depth exceeded". -/
  | depth
  /-- "String exceeds max size". -/
  | leafSize
  /-- "Invalid key in object". -/
  | key
  /-- "Cannot store other keys with server value keys". -/
  | serverValueKeys
  /-- `InvalidLeafValueType`. -/
  | leafValueType
  /-- Two keys that the comparator does not tell apart. -/
  | sameOrdering
  /-- No exception: a leaf of `NSNull` or of a server value, or a node with a priority,
  which is no `FNode`. -/
  | noNode
  deriving DecidableEq, Repr

def kFirebaseMaxObjectDepth : Nat := 1000

def kFirebaseMaxLeafSize : Nat := 10485760

namespace FValidation

def kPayloadPriority : String := ".priority"

def kPayloadValue : String := ".value"

def kServerValueSubKey : String := ".sv"

def kPayloadMetadataPrefix : Char := '.'

def isValidDictionaryKey (key : String) : Bool :=
  key = kPayloadPriority || key = kPayloadValue || key = kServerValueSubKey || isValidKey key

/-- A string that is not too long is a leaf, and so is a dictionary with the one key `.sv`. -/
def isValidLeafValue : NSValue → Except InvalidFirebaseData Bool
  | .null => .ok true
  | .string value => if value.utf8ByteSize > kFirebaseMaxLeafSize then .error .leafSize else .ok true
  | .array _ => .ok false
  | .dictionary dval =>
    if (SortedDict.get kServerValueSubKey dval).isSome then
      if dval.length > 1 then .error .serverValueKeys else .ok true
    else .ok false

end FValidation

namespace FNode

/-- The greatest index of the children. -/
def maxKey (kids : List (String × FNode)) : Nat := (kids.filterMap fun p => integerKey p.1).foldl max 0

mutual

def valForExport (exp : Bool) : FNode → NSValue
  | .leaf value => .string value
  | .children kids =>
    if kids.isEmpty then .null
    else
      let obj := kidsForExport exp kids
      if !exp && isArray kids then
        .array ((List.range (maxKey kids + 1)).map fun i => (SortedDict.get i.repr obj).getD .null)
      else .dictionary obj

def kidsForExport (exp : Bool) : List (String × FNode) → List (String × NSValue)
  | [] => []
  | (key, childNode) :: kids => (key, valForExport exp childNode) :: kidsForExport exp kids

end

mutual

def internalNodeFrom (depth : Nat) : NSValue → Except InvalidFirebaseData FNode
  | .null => if depth > kFirebaseMaxObjectDepth then .error .depth else .ok emptyNode
  | .string value => do
    if depth > kFirebaseMaxObjectDepth then throw .depth
    let _ ← isValidLeafValue (.string value)
    return .leaf value
  | .dictionary dval => do
    if depth > kFirebaseMaxObjectDepth then throw .depth
    if (SortedDict.get kPayloadPriority dval).isSome then throw .noNode
    match SortedDict.get kPayloadValue dval with
    | some value =>
      if !(← isValidLeafValue value) then throw .leafValueType
      match value with
      | .string value => return .leaf value
      | _ => throw .noNode
    | none =>
      if ← isValidLeafValue (.dictionary dval) then throw .noNode
      let children := SortedDict.ofList (← nodesFromDictionary (depth + 1) dval)
      if tied children then throw .sameOrdering
      return .children children
  | .array aval => do
    if depth > kFirebaseMaxObjectDepth then throw .depth
    let children := SortedDict.ofList (← nodesFromArray (depth + 1) 0 aval)
    if tied children then throw .sameOrdering
    return .children children

def nodesFromDictionary (depth : Nat) : List (String × NSValue) →
    Except InvalidFirebaseData (List (String × FNode))
  | [] => .ok []
  | (key, val) :: dval => do
    if !isValidDictionaryKey key then throw .key
    if key.toList.head? = some kPayloadMetadataPrefix then nodesFromDictionary depth dval
    else
      let childNode ← internalNodeFrom depth val
      let children ← nodesFromDictionary depth dval
      return if childNode.isEmpty then children else (key, childNode) :: children

/-- The objects from index `i` on. -/
def nodesFromArray (depth i : Nat) : List NSValue → Except InvalidFirebaseData (List (String × FNode))
  | [] => .ok []
  | val :: aval => do
    let childNode ← internalNodeFrom depth val
    let children ← nodesFromArray depth (i + 1) aval
    return if childNode.isEmpty then children else (i.repr, childNode) :: children

end

/-! ## Indices -/

section
variable {exp : Bool} {kids : List (String × FNode)}

theorem get_kidsForExport (k : String) : SortedDict.get k (kidsForExport exp kids) =
    (SortedDict.get k kids).map (valForExport exp) := by
  induction kids with
  | nil => rfl
  | cons p kids ih =>
    obtain ⟨key, childNode⟩ := p
    rw [kidsForExport, SortedDict.get, SortedDict.get, ih]
    split <;> rfl

/-- The payload keys are no keys of children. -/
theorem payload_kidsForExport {key : String} (hkey : key.toList.head? = some kPayloadMetadataPrefix)
    (hkids : ∀ p ∈ kids, p.1.toList.head? ≠ some kPayloadMetadataPrefix) :
    SortedDict.get key (kidsForExport exp kids) = none := by
  rw [get_kidsForExport]
  cases hget : SortedDict.get key kids with
  | none => rfl
  | some c => exact absurd hkey (hkids _ (SortedDict.mem_of_get hget))

/-- Without payload keys a dictionary is a node with the children that its entries give. -/
theorem internalNodeFrom_dictionary {depth : Nat} (hdepth : depth ≤ kFirebaseMaxObjectDepth)
    (hkids : ∀ p ∈ kids, p.1.toList.head? ≠ some kPayloadMetadataPrefix) :
    internalNodeFrom depth (.dictionary (kidsForExport exp kids)) = (do
      let children ← nodesFromDictionary (depth + 1) (kidsForExport exp kids)
      if tied (SortedDict.ofList children) then throw .sameOrdering
      return .children (SortedDict.ofList children)) := by
  have hsv : isValidLeafValue (.dictionary (kidsForExport exp kids)) = .ok false := by
    rw [isValidLeafValue, payload_kidsForExport (by decide) hkids]
    rfl
  rw [internalNodeFrom, if_neg (by omega), payload_kidsForExport (by decide) hkids,
    payload_kidsForExport (by decide) hkids, hsv]
  rfl

end

example : isArray [("1", .leaf "a")] = true := by decide

/-! ## The two readings of a dictionary -/

/-- A dictionary of texts within the bounds of the database, without payload keys. -/
inductive Within : Nat → FNode → Prop where
  | leaf {depth : Nat} {value : String} (size : value.utf8ByteSize ≤ kFirebaseMaxLeafSize) :
      Within depth (.leaf value)
  | empty {depth : Nat} : Within depth emptyNode
  | children {depth : Nat} {kids : List (String × FNode)} (sorted : SortedDict.Sorted kids)
      (keys : ∀ p ∈ kids, p.1.toList.head? ≠ some kPayloadMetadataPrefix)
      (below : ∀ p ∈ kids, Within depth p.2) : Within (depth + 1) (.children kids)

/-- The keys of the children are keys of the dictionary, in its order. -/
theorem sublist_nodeFromKids {kids children : List (String × FNode)} (h : nodeFromKids kids = .ok children) :
    (children.map Prod.fst).Sublist (kids.map Prod.fst) := by
  induction kids generalizing children with
  | nil =>
    cases h
    exact List.Sublist.refl _
  | cons p dval ih =>
    obtain ⟨key, val⟩ := p
    rw [nodeFromKids] at h
    split at h
    · cases h
    · obtain ⟨childNode, -, h⟩ := Raising.bind_ok_iff.1 h
      obtain ⟨rest, hrest, h⟩ := Raising.bind_ok_iff.1 h
      cases h
      split
      · exact (ih hrest).cons _
      · exact (ih hrest).cons_cons _

theorem nodesFromDictionary_ok_iff {depth : Nat} {kids children : List (String × FNode)}
    (hkids : ∀ p ∈ kids, p.1.toList.head? ≠ some kPayloadMetadataPrefix)
    (h : ∀ p ∈ kids, ∀ m, internalNodeFrom depth (valForExport true p.2) = .ok m ↔ nodeFrom p.2 = .ok m) :
    nodesFromDictionary depth (kidsForExport true kids) = .ok children ↔ nodeFromKids kids = .ok children := by
  induction kids generalizing children with
  | nil =>
    rw [kidsForExport, nodesFromDictionary, nodeFromKids]
    exact ⟨fun h => by cases h; rfl, fun h => by cases h; rfl⟩
  | cons p kids ih =>
    obtain ⟨key, val⟩ := p
    have hkey : key.toList.head? ≠ some kPayloadMetadataPrefix := hkids _ List.mem_cons_self
    have hvalid : isValidDictionaryKey key = isValidKey key := by
      have hpayload : ∀ k, k.toList.head? = some kPayloadMetadataPrefix → decide (key = k) = false :=
        fun k hk => decide_eq_false fun e => hkey (e ▸ hk)
      rw [isValidDictionaryKey, hpayload _ (by decide), hpayload _ (by decide), hpayload _ (by decide)]
      rfl
    have hval := h _ List.mem_cons_self
    have hrest : ∀ rest, nodesFromDictionary depth (kidsForExport true kids) = .ok rest ↔
        nodeFromKids kids = .ok rest := fun rest =>
      ih (fun q hq => hkids q (List.mem_cons_of_mem _ hq)) fun q hq => h q (List.mem_cons_of_mem _ hq)
    rw [kidsForExport, nodesFromDictionary, nodeFromKids, hvalid, if_neg hkey]
    cases isValidKey key with
    | false => exact iff_of_false (fun h => by cases h) fun h => by cases h
    | true =>
      simp only [Bool.not_true, Bool.false_eq_true, if_false, Raising.bind_ok_iff, hval, hrest]
      simp only [pure, Except.pure, Except.ok.injEq]

/-- **`internalNodeFrom:` reads a dictionary of texts as `nodeFrom` does.** -/
theorem internalNodeFrom_ok_iff {left : Nat} {n : FNode} (h : Within left n) {depth : Nat}
    (hdepth : depth + left ≤ kFirebaseMaxObjectDepth) (m : FNode) :
    internalNodeFrom depth (valForExport true n) = .ok m ↔ nodeFrom n = .ok m := by
  have hnull : ∀ {depth : Nat}, depth ≤ kFirebaseMaxObjectDepth → ∀ m,
      internalNodeFrom depth (valForExport true (.children [])) = .ok m ↔ nodeFrom (.children []) = .ok m := by
    intro depth hdepth m
    rw [valForExport, List.isEmpty_nil, if_pos rfl, internalNodeFrom, if_neg (by omega), nodeFrom, nodeFromKids]
    exact ⟨fun h => by cases h; rfl, fun h => by cases h; rfl⟩
  induction h generalizing depth m with
  | leaf hsize =>
    rw [valForExport, internalNodeFrom, if_neg (by omega), isValidLeafValue, if_neg (by omega), nodeFrom]
    exact ⟨fun h => by cases h; rfl, fun h => by cases h; rfl⟩
  | empty => exact hnull (by omega) m
  | @children left kids hs hkeys _ ih =>
    cases kids with
    | nil => exact hnull (by omega) m
    | cons p kids =>
      have hbelow : ∀ children, nodesFromDictionary (depth + 1) (kidsForExport true (p :: kids)) = .ok children ↔
          nodeFromKids (p :: kids) = .ok children :=
        fun _ => nodesFromDictionary_ok_iff hkeys fun q hq => ih q hq (by omega)
      have hself : ∀ {children}, nodeFromKids (p :: kids) = .ok children → SortedDict.ofList children = children :=
        fun h => (SortedDict.eq_ofList_of_perm (hs.sublist (sublist_nodeFromKids h))
          (SortedDict.nodup_keys (hs.sublist (sublist_nodeFromKids h))) (.refl _)).symm
      rw [valForExport, List.isEmpty_cons, if_neg (by simp)]
      simp only [Bool.not_true, Bool.false_and, Bool.false_eq_true, if_false]
      rw [internalNodeFrom_dictionary (by omega) hkeys, nodeFrom, Raising.bind_ok_iff, Raising.bind_ok_iff]
      refine exists_congr fun children => ?_
      rw [hbelow]
      refine and_congr_right fun hchildren => ?_
      rw [hself hchildren]
      cases tied children with
      | true => exact iff_of_false (fun h => by cases h) fun h => by cases h
      | false => exact ⟨fun h => by cases h; rfl, fun h => by cases h; rfl⟩

/-! ## Readings of `snapshot.value` -/

end FNode

namespace NSValue

/-- `value[key]`. -/
def objectForKeyedSubscript (key : String) : NSValue → Except NSException (Option NSValue)
  | .dictionary entries => .ok (SortedDict.get key entries)
  | _ => .error .invalidArgument

end NSValue

namespace FNode

/-- A reader of a node gets what `value[key]` gets of its exported form. -/
theorem objectForKeyedSubscript_valForExport (key : String) (n : FNode) :
    (valForExport false n).objectForKeyedSubscript key =
      (objectForKey key n).map (Option.map (valForExport false)) := by
  cases n with
  | leaf value =>
    rw [valForExport, objectForKey]
    rfl
  | children kids =>
    rw [valForExport, objectForKey]
    by_cases hempty : kids.isEmpty = true
    · rw [if_pos hempty, hempty, Bool.true_or, if_pos rfl]
      rfl
    · rw [if_neg hempty, Bool.not_eq_true] at *
      by_cases harray : isArray kids = true
      · simp [harray, hempty, NSValue.objectForKeyedSubscript, Except.map]
      · simp [harray, hempty, NSValue.objectForKeyedSubscript, Except.map, get_kidsForExport]

end FNode

end ShopingList
