import OnlyDoge.Library.HexText
import OnlyDoge.Library.JsonNumber
import OnlyDoge.Library.OrderedMap
import Mathlib.Data.List.Pairwise
set_option autoImplicit false

/-!
JSON values, the text that `JSON.stringify` makes of them, and `JSON.parse`. A surrogate that is
escaped alone is refused, since no text here holds one.
-/

/-- The members of an object stand in the order in which a program goes through its properties. -/
inductive JsonValue where
  | null
  | bool (value : Bool)
  | number (value : JsonValue.Number)
  | string (value : String)
  | array (items : List JsonValue)
  | object (members : List (String × JsonValue))

namespace JsonValue

/-- The number of a key that names an element of an array. -/
def arrayIndex (key : String) : Option Nat :=
  let n := Nat.ofDigitChars 10 key.toList 0
  if Nat.toDigits 10 n = key.toList ∧ n < 2 ^ 32 - 1 then some n else none

def isIndexMember (member : String × JsonValue) : Bool := (arrayIndex member.1).isSome

def indexLe (x y : String × JsonValue) : Bool :=
  decide ((arrayIndex x.1).getD 0 ≤ (arrayIndex y.1).getD 0)

/-- Indices go first and in their order; the other keys keep theirs. -/
def arrange (members : List (String × JsonValue)) : List (String × JsonValue) :=
  (members.filter isIndexMember).mergeSort indexLe ++ members.filter (!isIndexMember ·)

/-- The members of the object that the members of a text make; a key that occurs again replaces
its value. -/
def ofMembers (members : List (String × JsonValue)) : List (String × JsonValue) :=
  arrange (OrderedMap.ofEntries members).entries

/-- `value.key`; what is no object has no such property. -/
def get : JsonValue → String → Option JsonValue
  | .object members,key => OrderedMap.lookup members key
  | _,_ => none

def hexEscape (n : Nat) : List Char :=
  ['\\','u','0','0',HexText.hexDigit (n / 16),HexText.hexDigit (n % 16)]

def escapeChar (c : Char) : List Char :=
  if c = '"' then ['\\','"']
  else if c = '\\' then ['\\','\\']
  else if c = '\n' then ['\\','n']
  else if c = '\r' then ['\\','r']
  else if c = '\t' then ['\\','t']
  else if c.toNat = 8 then ['\\','b']
  else if c.toNat = 12 then ['\\','f']
  else if c.toNat < 32 then hexEscape c.toNat
  else [c]

def stringifyString (value : String) : List Char :=
  '"'::(value.toList.flatMap escapeChar ++ ['"'])

def keyword : Bool → List Char
  | true => ['t','r','u','e']
  | false => ['f','a','l','s','e']

mutual
def stringify : JsonValue → List Char
  | .null => ['n','u','l','l']
  | .bool value => keyword value
  | .number value => value.print
  | .string value => stringifyString value
  | .array [] => ['[',']']
  | .array (item::items) => '['::(stringify item ++ stringifyItems items)
  | .object [] => ['{','}']
  | .object (member::members) =>
    '{'::(stringifyString member.1 ++ ':'::(stringify member.2 ++ stringifyMembers members))

def stringifyItems : List JsonValue → List Char
  | [] => [']']
  | item::items => ','::(stringify item ++ stringifyItems items)

def stringifyMembers : List (String × JsonValue) → List Char
  | [] => ['}']
  | member::members =>
    ','::(stringifyString member.1 ++ ':'::(stringify member.2 ++ stringifyMembers members))
end

def isSpace (c : Char) : Bool := c = ' ' || c = '\t' || c = '\n' || c = '\r'

def skipSpace (text : List Char) : List Char := text.dropWhile isSpace

def codeUnit (a b c d : Char) : Option Nat := do
  let a ← HexText.hexValue a
  let b ← HexText.hexValue b
  let c ← HexText.hexValue c
  let d ← HexText.hexValue d
  return ((a * 16 + b) * 16 + c) * 16 + d

/-- What `u` and a code unit escape; a high surrogate goes with the low one behind it. -/
def scanCodeUnit (unit : Nat) (rest : List Char) : Option (Char × List Char) :=
  if unit < 55296 ∨ 57343 < unit then some (Char.ofNat unit,rest)
  else
    match rest with
    | '\\' :: 'u'::a::b::c::d::rest => do
      let low ← codeUnit a b c d
      if unit < 56320 ∧ 56320 ≤ low ∧ low ≤ 57343 then
        some (Char.ofNat (65536 + (unit - 55296) * 1024 + (low - 56320)),rest)
      else none
    | _ => none

/-- The next character of a string, which may be escaped. -/
def scanChar : List Char → Option (Char × List Char)
  | '\\' :: '"'::rest => some ('"',rest)
  | '\\' :: '\\'::rest => some ('\\',rest)
  | '\\' :: '/'::rest => some ('/',rest)
  | '\\' :: 'b'::rest => some (Char.ofNat 8,rest)
  | '\\' :: 'f'::rest => some (Char.ofNat 12,rest)
  | '\\' :: 'n'::rest => some ('\n',rest)
  | '\\' :: 'r'::rest => some ('\r',rest)
  | '\\' :: 't'::rest => some ('\t',rest)
  | '\\' :: 'u'::a::b::c::d::rest => (codeUnit a b c d).bind fun unit => scanCodeUnit unit rest
  | '\\'::_ => none
  | c::rest => if c.toNat < 32 then none else some (c,rest)
  | [] => none

/-- The rest of a string after its opening quote. -/
def scanString : Nat → List Char → Option (List Char × List Char)
  | 0,_ => none
  | _ + 1,'"'::rest => some ([],rest)
  | fuel + 1,text => do
    let (c,rest) ← scanChar text
    let (cs,rest) ← scanString fuel rest
    return (c::cs,rest)

mutual
def parseValue : Nat → List Char → Option (JsonValue × List Char)
  | 0,_ => none
  | fuel + 1,text =>
    match skipSpace text with
    | 'n' :: 'u' :: 'l' :: 'l'::rest => some (.null,rest)
    | 't' :: 'r' :: 'u' :: 'e'::rest => some (.bool true,rest)
    | 'f' :: 'a' :: 'l' :: 's' :: 'e'::rest => some (.bool false,rest)
    | '"'::rest => (scanString rest.length rest).map fun (cs,rest) =>
        (.string (String.ofList cs),rest)
    | '['::rest =>
      match skipSpace rest with
      | ']'::rest => some (.array [],rest)
      | rest => (parseItems fuel rest).map fun (items,rest) => (.array items,rest)
    | '{'::rest =>
      match skipSpace rest with
      | '}'::rest => some (.object [],rest)
      | rest => (parseMembers fuel rest).map fun (members,rest) =>
          (.object (ofMembers members),rest)
    | text => (Number.scan text).map fun (x,rest) => (.number x,rest)

/-- An item, and after a comma more of them. -/
def parseItems : Nat → List Char → Option (List JsonValue × List Char)
  | 0,_ => none
  | fuel + 1,text => do
    let (item,rest) ← parseValue fuel text
    match skipSpace rest with
    | ','::rest => (parseItems fuel rest).map fun (items,rest) => (item::items,rest)
    | ']'::rest => some ([item],rest)
    | _ => none

def parseMembers : Nat → List Char → Option (List (String × JsonValue) × List Char)
  | 0,_ => none
  | fuel + 1,text =>
    match skipSpace text with
    | '"'::rest => do
      let (key,rest) ← scanString rest.length rest
      match skipSpace rest with
      | ':'::rest => do
        let (value,rest) ← parseValue fuel rest
        let member := (String.ofList key,value)
        match skipSpace rest with
        | ','::rest => (parseMembers fuel rest).map fun (members,rest) => (member::members,rest)
        | '}'::rest => some ([member],rest)
        | _ => none
      | _ => none
    | _ => none
end

def parse (text : List Char) : Option JsonValue := do
  let (value,rest) ← parseValue (text.length + 1) text
  if skipSpace rest = [] then some value else none

inductive Canonical : JsonValue → Prop where
  | null : Canonical .null
  | bool (value : Bool) : Canonical (.bool value)
  | number (value : Number) : Canonical (.number value)
  | string (value : String) : Canonical (.string value)
  | array {items : List JsonValue} (h : ∀ item ∈ items, Canonical item) : Canonical (.array items)
  | object {members : List (String × JsonValue)} (harranged : ofMembers members = members)
      (h : ∀ member ∈ members, Canonical member.2) : Canonical (.object members)

theorem arrange_perm (members : List (String × JsonValue)) : (arrange members).Perm members :=
  ((List.mergeSort_perm _ _).append_right _).trans (List.filter_append_perm _ _)

theorem filter_arrange (members : List (String × JsonValue)) :
    (arrange members).filter isIndexMember =
        (members.filter isIndexMember).mergeSort indexLe ∧
      (arrange members).filter (!isIndexMember ·) = members.filter (!isIndexMember ·) := by
  have hsorted : ∀ member ∈ (members.filter isIndexMember).mergeSort indexLe,
      isIndexMember member = true := by
    intro member hmember
    exact (List.mem_filter.mp (List.mem_mergeSort.mp hmember)).2
  have hnone : (members.filter (!isIndexMember ·)).filter isIndexMember = [] := by
    simp
  have hothers : ((members.filter isIndexMember).mergeSort indexLe).filter
      (!isIndexMember ·) = [] := by
    refine List.filter_eq_nil_iff.mpr fun member hmember => ?_
    simp [hsorted member hmember]
  refine ⟨?_,?_⟩
  · rw [arrange,List.filter_append,List.filter_eq_self.mpr hsorted,hnone,List.append_nil]
  · rw [arrange,List.filter_append,hothers,List.filter_filter,List.nil_append]
    simp only [Bool.and_self]

theorem arrange_arrange (members : List (String × JsonValue)) :
    arrange (arrange members) = arrange members := by
  have hsorted : ((members.filter isIndexMember).mergeSort indexLe).Pairwise
      (fun x y => indexLe x y = true) := by
    apply List.pairwise_mergeSort
    · intro x y z hxy hyz
      simp only [indexLe,decide_eq_true_eq] at hxy hyz ⊢
      omega
    · intro x y
      simp only [indexLe,Bool.or_eq_true,decide_eq_true_eq]
      omega
  rw [arrange,(filter_arrange members).1,(filter_arrange members).2,
    List.mergeSort_of_pairwise hsorted]
  rfl

theorem ofMembers_nil : ofMembers [] = [] := by
  simp [ofMembers,arrange,OrderedMap.ofEntries,OrderedMap.empty]

theorem ofMembers_ofMembers (members : List (String × JsonValue)) :
    ofMembers (ofMembers members) = ofMembers members := by
  have hkeys : ((ofMembers members).map Prod.fst).Nodup :=
    ((arrange_perm _).map Prod.fst).nodup_iff.mpr (OrderedMap.ofEntries members).nodup
  rw [ofMembers,OrderedMap.entries_ofEntries hkeys]
  exact arrange_arrange _

theorem mem_ofMembers {members : List (String × JsonValue)} {member : String × JsonValue}
    (h : member ∈ ofMembers members) : member ∈ members := by
  obtain ⟨key,value⟩ := member
  exact OrderedMap.get_ofEntries_of_mem (OrderedMap.get_eq_some.mpr ((arrange_perm _).mem_iff.mp h))

theorem parse_canonical_of_fuel (fuel : Nat) :
    (∀ text value rest, parseValue fuel text = some (value,rest) → Canonical value) ∧
    (∀ text items rest, parseItems fuel text = some (items,rest) →
      ∀ item ∈ items, Canonical item) ∧
    (∀ text members rest, parseMembers fuel text = some (members,rest) →
      ∀ member ∈ members, Canonical member.2) := by
  induction fuel with
  | zero => simp [parseValue,parseItems,parseMembers]
  | succ fuel ih =>
    obtain ⟨hvalue,hitems,hmembers⟩ := ih
    refine ⟨fun text value rest h => ?_,fun text items rest h => ?_,fun text members rest h => ?_⟩
    · unfold parseValue at h
      split at h
      · cases h; exact .null
      · cases h; exact .bool true
      · cases h; exact .bool false
      · obtain ⟨parsed,_,hparsed⟩ := Option.map_eq_some_iff.mp h
        cases hparsed
        exact .string _
      · split at h
        · cases h
          exact .array (by simp)
        · obtain ⟨parsed,hsome,hparsed⟩ := Option.map_eq_some_iff.mp h
          cases hparsed
          exact .array (hitems _ _ _ hsome)
      · split at h
        · cases h
          exact .object ofMembers_nil (by simp)
        · obtain ⟨parsed,hsome,hparsed⟩ := Option.map_eq_some_iff.mp h
          cases hparsed
          exact .object (ofMembers_ofMembers _)
            (fun member hmember => hmembers _ _ _ hsome member (mem_ofMembers hmember))
      · obtain ⟨parsed,_,hparsed⟩ := Option.map_eq_some_iff.mp h
        cases hparsed
        exact .number _
    · simp only [parseItems,Option.bind_eq_bind,Option.bind_eq_some_iff] at h
      obtain ⟨⟨first,tail⟩,hfirst,h⟩ := h
      have hcanonical := hvalue _ _ _ hfirst
      dsimp only at h
      split at h
      · obtain ⟨parsed,hsome,hparsed⟩ := Option.map_eq_some_iff.mp h
        cases hparsed
        simpa using ⟨hcanonical,hitems _ _ _ hsome⟩
      · cases h
        simpa using hcanonical
      · cases h
    · unfold parseMembers at h
      split at h
      · simp only [Option.bind_eq_bind,Option.bind_eq_some_iff] at h
        obtain ⟨⟨key,tail⟩,_,h⟩ := h
        dsimp only at h
        split at h
        · simp only [Option.bind_eq_some_iff] at h
          obtain ⟨⟨first,tail⟩,hfirst,h⟩ := h
          have hcanonical := hvalue _ _ _ hfirst
          dsimp only at h
          split at h
          · obtain ⟨parsed,hsome,hparsed⟩ := Option.map_eq_some_iff.mp h
            cases hparsed
            simpa using ⟨hcanonical,fun key member hmember =>
              hmembers _ _ _ hsome (key,member) hmember⟩
          · cases h
            simpa using hcanonical
          · cases h
        · cases h
      · cases h

theorem parse_canonical {text : List Char} {value : JsonValue} (h : parse text = some value) :
    Canonical value := by
  obtain ⟨⟨parsed,rest⟩,hparsed,h⟩ := Option.bind_eq_some_iff.mp h
  dsimp only at h
  split at h
  · cases h
    exact (parse_canonical_of_fuel _).1 _ _ _ hparsed
  · cases h

end JsonValue
