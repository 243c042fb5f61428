import OnlyDoge.Library.Json
set_option autoImplicit false

/-! Parsing undoes printing, so two values with one text are the same. -/

namespace JsonValue

theorem codeUnit_hexEscape {n : Nat} (h : n < 32) :
    codeUnit '0' '0' (HexText.hexDigit (n / 16)) (HexText.hexDigit (n % 16)) = some n := by
  have hzero : HexText.hexValue '0' = some 0 := by decide
  simp only [codeUnit,hzero,HexText.hexValue_hexDigit _ (show n / 16 < 16 by omega),
    HexText.hexValue_hexDigit _ (show n % 16 < 16 by omega),Option.bind_eq_bind,Option.bind_some]
  have hsum : ((0 * 16 + 0) * 16 + n / 16) * 16 + n % 16 = n := by omega
  rw [hsum]
  rfl

theorem scanCodeUnit_of_lt {n : Nat} (h : n < 32) (rest : List Char) :
    scanCodeUnit n rest = some (Char.ofNat n,rest) := by
  unfold scanCodeUnit
  exact if_pos (Or.inl (by omega))

theorem scanChar_plain {c : Char} (hslash : c ≠ '\\') (h : 32 ≤ c.toNat) (rest : List Char) :
    scanChar (c::rest) = some (c,rest) := by
  unfold scanChar
  split <;> simp_all

theorem scanChar_escapeChar (c : Char) (rest : List Char) :
    scanChar (escapeChar c ++ rest) = some (c,rest) := by
  have hof : ∀ n, c.toNat = n → Char.ofNat n = c := by
    rintro n rfl
    exact Char.ofNat_toNat c
  unfold escapeChar
  split
  · subst_vars; rfl
  split
  · subst_vars; rfl
  split
  · subst_vars; rfl
  split
  · subst_vars; rfl
  split
  · subst_vars; rfl
  split
  · rename_i h
    rw [← hof 8 h]
    rfl
  split
  · rename_i h
    rw [← hof 12 h]
    rfl
  split
  · rename_i h
    have hscan : scanChar (hexEscape c.toNat ++ rest) =
        (codeUnit '0' '0' (HexText.hexDigit (c.toNat / 16)) (HexText.hexDigit (c.toNat % 16))).bind
          fun unit => scanCodeUnit unit rest := rfl
    rw [hscan,codeUnit_hexEscape h,Option.bind_some,scanCodeUnit_of_lt h,Char.ofNat_toNat]
  · exact scanChar_plain (by assumption) (by omega) rest

theorem escapeChar_cons (c : Char) : ∃ d ds, escapeChar c = d::ds ∧ d ≠ '"' := by
  unfold escapeChar
  split
  · exact ⟨_,_,rfl,by decide⟩
  rename_i hquote
  split
  · exact ⟨_,_,rfl,by decide⟩
  split
  · exact ⟨_,_,rfl,by decide⟩
  split
  · exact ⟨_,_,rfl,by decide⟩
  split
  · exact ⟨_,_,rfl,by decide⟩
  split
  · exact ⟨_,_,rfl,by decide⟩
  split
  · exact ⟨_,_,rfl,by decide⟩
  split
  · exact ⟨_,_,rfl,by decide⟩
  · exact ⟨_,_,rfl,hquote⟩

theorem scanString_succ {c : Char} (hc : c ≠ '"') (fuel : Nat) (text : List Char) :
    scanString (fuel + 1) (c::text) = (do
      let (d,rest) ← scanChar (c::text)
      let (ds,rest) ← scanString fuel rest
      return (d::ds,rest)) := by
  rw [scanString]
  simpa using hc

theorem scanString_escape (cs rest : List Char) (fuel : Nat)
    (h : (cs.flatMap escapeChar).length < fuel) :
    scanString fuel (cs.flatMap escapeChar ++ '"'::rest) = some (cs,rest) := by
  induction cs generalizing fuel with
  | nil =>
    obtain ⟨fuel,rfl⟩ := Nat.exists_eq_add_of_lt h
    rfl
  | cons c cs ih =>
    obtain ⟨d,ds,hd,hquote⟩ := escapeChar_cons c
    cases fuel with
    | zero => omega
    | succ fuel =>
      have hscan := scanChar_escapeChar c (cs.flatMap escapeChar ++ '"'::rest)
      rw [List.flatMap_cons,List.length_append,hd,List.length_cons] at h
      rw [hd,List.cons_append] at hscan
      rw [List.flatMap_cons,List.append_assoc,hd,List.cons_append,scanString_succ hquote,hscan]
      simp only [Option.bind_eq_bind,Option.bind_some,ih fuel (by omega)]
      rfl

/-- A value starts with none of the characters that may stand before it or in its place. -/
def Starts (c : Char) : Prop := isSpace c = false ∧ c ≠ ']' ∧ c ≠ '}'

theorem skipSpace_cons {c : Char} (h : isSpace c = false) (text : List Char) :
    skipSpace (c::text) = c::text := by
  simp [skipSpace,h]

theorem ne_of_numeric {c d : Char} (h : c = '-' ∨ c.isDigit) (hd : d.isDigit = false)
    (hminus : d ≠ '-') : c ≠ d := by
  intro hc
  subst hc
  rcases h with h | h
  · exact hminus h
  · rw [hd] at h
    cases h

theorem starts_of_numeric {c : Char} (h : c = '-' ∨ c.isDigit) : Starts c := by
  have hne : ∀ d : Char, d.isDigit = false → d ≠ '-' → c ≠ d := by
    intro d hd hminus
    exact ne_of_numeric h hd hminus
  refine ⟨?_,hne _ (by decide) (by decide),hne _ (by decide) (by decide)⟩
  simp [isSpace,hne ' ' (by decide) (by decide),hne '\t' (by decide) (by decide),
    hne '\n' (by decide) (by decide),hne '\r' (by decide) (by decide)]

theorem stringify_cons (value : JsonValue) : ∃ c cs, stringify value = c::cs ∧ Starts c := by
  cases value with
  | null => exact ⟨_,_,by rw [stringify],by decide,by decide,by decide⟩
  | bool value =>
    cases value with
    | false => exact ⟨_,_,by rw [stringify,keyword],by decide,by decide,by decide⟩
    | true => exact ⟨_,_,by rw [stringify,keyword],by decide,by decide,by decide⟩
  | number value =>
    obtain ⟨c,cs,hcs,hc⟩ := value.print_cons
    exact ⟨c,cs,by rw [stringify,hcs],starts_of_numeric hc⟩
  | string value => exact ⟨_,_,by rw [stringify,stringifyString],by decide,by decide,by decide⟩
  | array items => cases items <;> exact ⟨_,_,by rw [stringify],by decide,by decide,by decide⟩
  | object members =>
    cases members <;> exact ⟨_,_,by rw [stringify],by decide,by decide,by decide⟩

theorem parseValue_number (fuel : Nat) (x : Number) {rest : List Char} (h : Number.Ends rest) :
    parseValue (fuel + 1) (x.print ++ rest) = some (.number x,rest) := by
  have hscan := Number.scan_print x h
  obtain ⟨c,cs,hcs,hc⟩ := x.print_cons
  rw [hcs,List.cons_append] at hscan ⊢
  unfold parseValue
  rw [skipSpace_cons (starts_of_numeric hc).1]
  split
  · rename_i heq
    exact absurd (List.cons.inj heq).1 (ne_of_numeric hc (by decide) (by decide))
  · rename_i heq
    exact absurd (List.cons.inj heq).1 (ne_of_numeric hc (by decide) (by decide))
  · rename_i heq
    exact absurd (List.cons.inj heq).1 (ne_of_numeric hc (by decide) (by decide))
  · rename_i heq
    exact absurd (List.cons.inj heq).1 (ne_of_numeric hc (by decide) (by decide))
  · rename_i heq
    exact absurd (List.cons.inj heq).1 (ne_of_numeric hc (by decide) (by decide))
  · rename_i heq
    exact absurd (List.cons.inj heq).1 (ne_of_numeric hc (by decide) (by decide))
  · rw [hscan]
    rfl

theorem stringifyString_append (value : String) (rest : List Char) :
    stringifyString value ++ rest = '"'::(value.toList.flatMap escapeChar ++ '"'::rest) := by
  simp [stringifyString]

theorem scanString_stringify (value : String) (rest : List Char) :
    scanString (value.toList.flatMap escapeChar ++ '"'::rest).length
      (value.toList.flatMap escapeChar ++ '"'::rest) = some (value.toList,rest) :=
  scanString_escape _ _ _ (by simp)

theorem parseValue_string (fuel : Nat) (value : String) (rest : List Char) :
    parseValue (fuel + 1) (stringifyString value ++ rest) = some (.string value,rest) := by
  rw [stringifyString_append,parseValue,skipSpace_cons (by decide)]
  simp only [scanString_stringify,Option.map_some,String.ofList_toList]

theorem parseValue_bracket {fuel : Nat} {c : Char} (hc : Starts c) (text : List Char) :
    parseValue (fuel + 1) ('['::c::text) =
      (parseItems fuel (c::text)).map fun parsed => (.array parsed.1,parsed.2) := by
  rw [parseValue,skipSpace_cons (by decide)]
  simp only [skipSpace_cons hc.1]
  split
  · rename_i heq
    exact absurd (List.cons.inj heq).1 hc.2.1
  · rfl

theorem parseValue_brace {fuel : Nat} {c : Char} (hc : Starts c) (text : List Char) :
    parseValue (fuel + 1) ('\x7b'::c::text) =
      (parseMembers fuel (c::text)).map fun parsed => (.object (ofMembers parsed.1),parsed.2) := by
  rw [parseValue,skipSpace_cons (by decide)]
  simp only [skipSpace_cons hc.1]
  split
  · rename_i heq
    exact absurd (List.cons.inj heq).1 hc.2.2
  · rfl

theorem stringifyItems_ends (items : List JsonValue) (rest : List Char) :
    Number.Ends (stringifyItems items ++ rest) := by
  cases items with
  | nil => exact Number.Ends.bracket _
  | cons item items => exact Number.Ends.comma _

theorem stringifyMembers_ends (members : List (String × JsonValue)) (rest : List Char) :
    Number.Ends (stringifyMembers members ++ rest) := by
  cases members with
  | nil => exact Number.Ends.brace _
  | cons member members => exact Number.Ends.comma _

/-- What is printed of a member. -/
def stringifyMember (member : String × JsonValue) : List Char :=
  stringifyString member.1 ++ ':'::stringify member.2

def ParsesValues (fuel : Nat) : Prop :=
  ∀ value rest, Canonical value → Number.Ends rest → (stringify value).length ≤ fuel →
    parseValue fuel (stringify value ++ rest) = some (value,rest)

def ParsesItems (fuel : Nat) : Prop :=
  ∀ item items rest, (∀ value ∈ item::items, Canonical value) →
    (stringify item).length + (stringifyItems items).length ≤ fuel →
    parseItems fuel (stringify item ++ (stringifyItems items ++ rest)) = some (item::items,rest)

def ParsesMembers (fuel : Nat) : Prop :=
  ∀ member members rest, (∀ other ∈ member::members, Canonical other.2) →
    (stringifyMember member).length + (stringifyMembers members).length ≤ fuel →
    parseMembers fuel (stringifyMember member ++ (stringifyMembers members ++ rest)) =
      some (member::members,rest)

variable {fuel : Nat}

theorem parsesValues_succ (hitems : ParsesItems fuel) (hmembers : ParsesMembers fuel) :
    ParsesValues (fuel + 1) := by
  intro value rest hcanonical hends h
  cases hcanonical with
  | null => rfl
  | bool value => cases value <;> rfl
  | number x =>
    rw [stringify]
    exact parseValue_number fuel x hends
  | string value =>
    rw [stringify]
    exact parseValue_string fuel value rest
  | @array items hall =>
    cases items with
    | nil => rfl
    | cons item items =>
      obtain ⟨c,cs,hcs,hc⟩ := stringify_cons item
      rw [stringify,List.length_cons,List.length_append] at h
      have hparsed := hitems item items rest hall (by omega)
      rw [hcs,List.cons_append] at hparsed
      rw [stringify,List.cons_append,List.append_assoc,hcs,List.cons_append,
        parseValue_bracket hc,hparsed]
      rfl
  | @object members harranged hall =>
    cases members with
    | nil => rfl
    | cons member members =>
      have hlength : (stringifyMember member).length + (stringifyMembers members).length ≤
          fuel := by
        rw [stringify,List.length_cons] at h
        simp only [stringifyMember,List.length_append,List.length_cons] at h ⊢
        omega
      have hparsed := hmembers member members rest hall hlength
      have htext : stringify (.object (member::members)) ++ rest =
          '\x7b'::(stringifyMember member ++ (stringifyMembers members ++ rest)) := by
        rw [stringify]
        simp [stringifyMember]
      have hquote : Starts '"' := ⟨by decide,by decide,by decide⟩
      rw [stringifyMember,List.append_assoc,stringifyString_append] at hparsed
      rw [htext,stringifyMember,List.append_assoc,stringifyString_append,
        parseValue_brace hquote,hparsed,Option.map_some,harranged]

theorem parsesItems_succ (hvalues : ParsesValues fuel) (hitems : ParsesItems fuel) :
    ParsesItems (fuel + 1) := by
  intro item items rest hcanonical h
  have hfirst := hvalues item (stringifyItems items ++ rest) (hcanonical item (by simp))
    (stringifyItems_ends items rest)
  cases items with
  | nil =>
    rw [stringifyItems,List.length_singleton] at h
    rw [parseItems,hfirst (by omega)]
    rfl
  | cons next items =>
    rw [stringifyItems,List.length_cons,List.length_append] at h
    have hrest := hitems next items rest
      (fun value hv => hcanonical value (List.mem_cons_of_mem _ hv)) (by omega)
    rw [parseItems,hfirst (by omega)]
    simp only [Option.bind_eq_bind,Option.bind_some,stringifyItems,List.cons_append,
      List.append_assoc,skipSpace_cons (show isSpace ',' = false by decide),hrest,
      Option.map_some]

theorem stringifyMembers_cons (next : String × JsonValue) (members : List (String × JsonValue)) :
    stringifyMembers (next::members) = ','::(stringifyMember next ++ stringifyMembers members) := by
  rw [stringifyMembers]
  simp [stringifyMember]

theorem parsesMembers_succ (hvalues : ParsesValues fuel) (hmembers : ParsesMembers fuel) :
    ParsesMembers (fuel + 1) := by
  intro member members rest hcanonical h
  have hfirst := hvalues member.2 (stringifyMembers members ++ rest)
    (hcanonical member (by simp)) (stringifyMembers_ends members rest)
  have hlength : (stringifyMember member).length =
      (stringifyString member.1).length + (stringify member.2).length + 1 := by
    simp only [stringifyMember,List.length_append,List.length_cons]
    omega
  have htext : stringifyMember member ++ (stringifyMembers members ++ rest) =
      '"'::(member.1.toList.flatMap escapeChar ++
        '"' :: ':'::(stringify member.2 ++ (stringifyMembers members ++ rest))) := by
    rw [stringifyMember,List.append_assoc,stringifyString_append]
    rfl
  rw [htext,parseMembers,skipSpace_cons (by decide)]
  simp only [scanString_stringify,Option.bind_eq_bind,Option.bind_some,
    skipSpace_cons (show isSpace ':' = false by decide)]
  cases members with
  | nil =>
    rw [stringifyMembers,List.length_singleton] at h
    rw [hfirst (by omega)]
    simp [stringifyMembers,skipSpace_cons (show isSpace '\x7d' = false by decide)]
  | cons next members =>
    rw [stringifyMembers_cons,List.length_cons,List.length_append] at h
    have hrest := hmembers next members rest
      (fun other ho => hcanonical other (List.mem_cons_of_mem _ ho)) (by omega)
    rw [hfirst (by omega),stringifyMembers_cons,List.cons_append,List.append_assoc]
    simp only [Option.bind_some,skipSpace_cons (show isSpace ',' = false by decide),hrest,
      Option.map_some,String.ofList_toList]

theorem parses_of_fuel (fuel : Nat) :
    ParsesValues fuel ∧ ParsesItems fuel ∧ ParsesMembers fuel := by
  induction fuel with
  | zero =>
    refine ⟨fun value rest _ _ h => ?_,fun item items rest _ h => ?_,
      fun member members rest _ h => ?_⟩
    · obtain ⟨c,cs,hcs,-⟩ := stringify_cons value
      simp [hcs] at h
    · obtain ⟨c,cs,hcs,-⟩ := stringify_cons item
      simp [hcs] at h
    · simp [stringifyMember,stringifyString] at h
  | succ fuel ih =>
    obtain ⟨hvalues,hitems,hmembers⟩ := ih
    exact ⟨parsesValues_succ hitems hmembers,parsesItems_succ hvalues hitems,
      parsesMembers_succ hvalues hmembers⟩

theorem parse_stringify {value : JsonValue} (h : Canonical value) :
    parse (stringify value) = some value := by
  have hparsed := (parses_of_fuel ((stringify value).length + 1)).1 value [] h
    Number.Ends.nil (by omega)
  rw [List.append_nil] at hparsed
  rw [parse,hparsed]
  rfl

theorem stringify_injective {x y : JsonValue} (hx : Canonical x) (hy : Canonical y)
    (h : stringify x = stringify y) : x = y := by
  have hparsed := parse_stringify hx
  rw [h,parse_stringify hy] at hparsed
  exact (Option.some.inj hparsed).symm

end JsonValue
