import OnlyDoge.Chain.Amounts
import OnlyDoge.Warehouse.QueryChunks
set_option autoImplicit false

/-! External ids (`domain/value-objects.ts`) and the ids of API keys (`domain/api-key.ts`). -/

namespace OnlyDoge.Access

inductive IdPrefix where
  | key
  deriving DecidableEq,Repr

/-- The members of `prefixSet`. -/
def IdPrefix.text : IdPrefix → String
  | .key => "key"

structure ExternalId where
  value : String
  idPrefix : IdPrefix
  deriving DecidableEq,Repr

def invalidId (raw : String) : String := s!"invalid parameter for `id`: {raw}"

def requireIdPrefix (value : Option String) (raw : String) : Except String IdPrefix :=
  if value = some IdPrefix.key.text then .ok .key else .error s!"invalid id prefix: {raw}"

def hasExpectedPrefix (idPrefix : IdPrefix) (expectedPrefix : Option IdPrefix) : Bool :=
  match expectedPrefix with
  | none => true
  | some expected => idPrefix = expected

def assertExpectedPrefix (idPrefix : IdPrefix) (expectedPrefix : Option IdPrefix) (raw : String) :
    Except String Unit :=
  if hasExpectedPrefix idPrefix expectedPrefix then .ok () else .error (invalidId raw)

def assertIdSuffixPresent (value : Option String) (raw : String) : Except String String :=
  match value with
  | none => .error (invalidId raw)
  | some suffix => if suffix = "" then .error (invalidId raw) else .ok suffix

def assertIdSuffixLength (value : String) (raw : String) : Except String Unit :=
  if codeUnitLength value > 32 then .error (invalidId raw) else .ok ()

/-- `[A-Za-z0-9]` -/
def isIdCharacter (c : Char) : Bool :=
  ('A' ≤ c && c ≤ 'Z') || ('a' ≤ c && c ≤ 'z') || ('0' ≤ c && c ≤ '9')

def assertIdSuffixCharacters (value : String) (raw : String) : Except String Unit :=
  if !value.toList.isEmpty && value.toList.all isIdCharacter then .ok ()
  else .error (invalidId raw)

def assertValidIdSuffix (value : Option String) (raw : String) : Except String Unit := do
  let suffix ← assertIdSuffixPresent value raw
  assertIdSuffixLength suffix raw
  assertIdSuffixCharacters suffix raw

/-- `value.split('_')` -/
def splitUnderscores (value : String) : List String :=
  (value.toList.splitOn '_').map String.ofList

/-- `[prefix, suffix]` takes the first two parts and leaves the others unread. -/
def ExternalId.parse (value : String) (expectedPrefix : Option IdPrefix) :
    Except String ExternalId := do
  let trimmed := trim value
  let parts := splitUnderscores trimmed
  let idPrefix ← requireIdPrefix parts[0]? value
  assertExpectedPrefix idPrefix expectedPrefix value
  assertValidIdSuffix parts[1]? value
  return ⟨trimmed,idPrefix⟩

/-- `randomUUID()`: 36 characters, of which all but four dashes are lower case hex digits. -/
structure RandomUuid where
  text : String
  length : text.toList.length = 36
  dashes : text.toList.countP (· = '-') = 4
  digits : ∀ c ∈ text.toList, c ≠ '-' → c.isDigit ∨ ('a' ≤ c ∧ c ≤ 'f')

/-- `randomUUID().replaceAll('-', '').slice(0, 24)` -/
def randomSuffix (uuid : RandomUuid) : String :=
  String.ofList ((uuid.text.toList.filter (· ≠ '-')).take 24)

def ExternalId.create (idPrefix : IdPrefix) (raw : Option String) (uuid : RandomUuid) :
    Except String ExternalId :=
  let suffix :=
    match raw with
    | none => randomSuffix uuid
    | some raw => if trim raw = "" then randomSuffix uuid else trim raw
  ExternalId.parse (idPrefix.text ++ "_" ++ suffix) (some idPrefix)

def createApiKeyId (id : Option String) (uuid : RandomUuid) : Except String String :=
  match id with
  | none => (ExternalId.create .key none uuid).map (·.value)
  | some id =>
    if id = "" then (ExternalId.create .key none uuid).map (·.value)
    else (ExternalId.parse id (some .key)).map (·.value)

/-- 1 to 32 ASCII letters or digits. -/
def IdSuffix (suffix : List Char) : Prop :=
  1 ≤ suffix.length ∧ suffix.length ≤ 32 ∧ ∀ c ∈ suffix, isIdCharacter c

/-- `key_`, a suffix and nothing else. -/
def IdGrammar (text : String) : Prop :=
  ∃ suffix, IdSuffix suffix ∧ text.toList = "key".toList ++ '_' :: suffix

/-- A well formed id and then a further `_` with any text. -/
def FurtherPart (text : String) : Prop :=
  ∃ suffix rest, IdSuffix suffix ∧ text.toList = "key".toList ++ '_' :: (suffix ++ '_' :: rest)

theorem isIdCharacter_underscore : isIdCharacter '_' = false := by decide

theorem underscore_notMem_suffix {suffix : List Char} (h : IdSuffix suffix) : '_' ∉ suffix := by
  intro hin
  have hall := h.2.2 '_' hin
  rw [isIdCharacter_underscore] at hall
  cases hall

theorem utf16Units_idCharacter {c : Char} (h : isIdCharacter c) : utf16Units c = [c.toNat] := by
  have hsmall : c.toNat < 0x10000 := by
    have hval : c.toNat = c.val.toNat := rfl
    simp only [isIdCharacter,Bool.or_eq_true,Bool.and_eq_true,decide_eq_true_eq,Char.le_def,
      UInt32.le_iff_toNat_le] at h
    simp at h
    omega
  rw [utf16Units,if_pos hsmall]

theorem codeUnitLength_idCharacters {suffix : List Char} (h : ∀ c ∈ suffix, isIdCharacter c) :
    codeUnitLength (String.ofList suffix) = suffix.length := by
  simp only [codeUnitLength,String.toList_ofList]
  induction suffix with
  | nil => rfl
  | cons c suffix ih =>
    have hrest := ih fun d hd => h d (List.mem_cons_of_mem c hd)
    rw [List.flatMap_cons,utf16Units_idCharacter (h c List.mem_cons_self)]
    simp
    simpa using hrest

theorem codeUnitLength_le (text : String) : text.toList.length ≤ codeUnitLength text := by
  unfold codeUnitLength
  induction text.toList with
  | nil => simp
  | cons c rest ih =>
    have hpos : 1 ≤ (utf16Units c).length := by
      unfold utf16Units
      split <;> simp
    rw [List.flatMap_cons,List.length_append,List.length_cons]
    omega

theorem assertValidIdSuffix_ok {value : Option String} {raw : String} :
    assertValidIdSuffix value raw = .ok () ↔
      ∃ suffix, value = some suffix ∧ IdSuffix suffix.toList := by
  cases value with
  | none => simp [assertValidIdSuffix,assertIdSuffixPresent,bind,Except.bind]
  | some suffix =>
    by_cases hempty : suffix = ""
    · subst hempty
      simp [assertValidIdSuffix,assertIdSuffixPresent,bind,Except.bind,IdSuffix]
    · have hpos : suffix.toList ≠ [] := by simpa using hempty
      have hlength := List.length_pos_iff.mpr hpos
      by_cases hlong : codeUnitLength suffix > 32
      · simp only [assertValidIdSuffix,assertIdSuffixPresent,hempty,if_false,bind,Except.bind,
          assertIdSuffixLength,hlong,if_true,reduceCtorEq,false_iff]
        rintro ⟨other,heq,hsuffix⟩
        cases heq
        have hunits := codeUnitLength_idCharacters hsuffix.2.2
        rw [String.ofList_toList] at hunits
        have := hsuffix.2.1
        omega
      · have hshort := codeUnitLength_le suffix
        simp only [assertValidIdSuffix,assertIdSuffixPresent,hempty,if_false,bind,Except.bind,
          assertIdSuffixLength,hlong,assertIdSuffixCharacters]
        constructor
        · intro h
          split at h
          · rename_i hall
            simp only [Bool.and_eq_true,List.all_eq_true] at hall
            exact ⟨suffix,rfl,by omega,by omega,hall.2⟩
          · cases h
        · rintro ⟨other,heq,hsuffix⟩
          cases heq
          have hall : (!suffix.toList.isEmpty && suffix.toList.all isIdCharacter) = true := by
            simp only [Bool.and_eq_true,List.all_eq_true]
            exact ⟨by simpa using hpos,hsuffix.2.2⟩
          rw [if_pos hall]

theorem parse_eq_ok {value : String} {id : ExternalId} :
    ExternalId.parse value (some .key) = .ok id ↔
      (splitUnderscores (trim value))[0]? = some "key" ∧
        (∃ suffix, (splitUnderscores (trim value))[1]? = some suffix ∧ IdSuffix suffix.toList) ∧
        id = ⟨trim value,.key⟩ := by
  rw [← @assertValidIdSuffix_ok _ value]
  unfold ExternalId.parse requireIdPrefix
  by_cases hkey : (splitUnderscores (trim value))[0]? = some "key"
  · cases hsuffix : assertValidIdSuffix (splitUnderscores (trim value))[1]? value with
    | error e =>
      simp [hkey,hsuffix,IdPrefix.text,assertExpectedPrefix,hasExpectedPrefix,bind,Except.bind]
    | ok u =>
      simp [hkey,hsuffix,IdPrefix.text,assertExpectedPrefix,hasExpectedPrefix,bind,Except.bind,
        pure,Except.pure,eq_comm]
  · simp [hkey,IdPrefix.text,bind,Except.bind]

theorem splitUnderscores_key {text : String} {rest : List Char}
    (h : text.toList = "key".toList ++ '_' :: rest) :
    splitUnderscores text = "key"::(rest.splitOn '_').map String.ofList := by
  have hkey : '_' ∉ "key".toList := by decide
  rw [splitUnderscores,h,List.splitOn_append_cons_self_of_not_mem hkey]
  rfl

/-- The first two parts are `key` and a suffix iff the text is an id or goes on behind one. -/
theorem splitUnderscores_id {text : String} :
    ((splitUnderscores text)[0]? = some "key" ∧
      ∃ suffix, (splitUnderscores text)[1]? = some suffix ∧ IdSuffix suffix.toList) ↔
      IdGrammar text ∨ FurtherPart text := by
  constructor
  · rintro ⟨hkey,suffix,hsecond,hsuffix⟩
    have hjoin : ['_'].intercalate (text.toList.splitOn '_') = text.toList :=
      List.intercalate_splitOn '_'
    cases hparts : text.toList.splitOn '_' with
    | nil => simp [splitUnderscores,hparts] at hkey
    | cons first parts =>
      cases parts with
      | nil => simp [splitUnderscores,hparts] at hsecond
      | cons second more =>
        simp only [splitUnderscores,hparts,List.map_cons,List.getElem?_cons_zero,
          List.getElem?_cons_succ,Option.some.injEq] at hkey hsecond
        have hfirst : first = "key".toList := by rw [← hkey,String.toList_ofList]
        rw [← hsecond,String.toList_ofList] at hsuffix
        rw [hparts,hfirst] at hjoin
        cases more with
        | nil => exact .inl ⟨second,hsuffix,by rw [← hjoin]; simp [List.intercalate]⟩
        | cons third more =>
          exact .inr ⟨second,['_'].intercalate (third::more),hsuffix,
            by rw [← hjoin]; simp [List.intercalate]⟩
  · rintro (⟨suffix,hsuffix,htext⟩ | ⟨suffix,rest,hsuffix,htext⟩)
    · have hno := underscore_notMem_suffix hsuffix
      rw [splitUnderscores_key htext,List.splitOn_eq_singleton hno]
      exact ⟨rfl,String.ofList suffix,rfl,by simpa using hsuffix⟩
    · have hno := underscore_notMem_suffix hsuffix
      rw [splitUnderscores_key htext,List.splitOn_append_cons_self_of_not_mem hno]
      exact ⟨rfl,String.ofList suffix,rfl,by simpa using hsuffix⟩

theorem not_grammar_of_furtherPart {text : String} (h : FurtherPart text) : ¬IdGrammar text := by
  obtain ⟨suffix,rest,hsuffix,htext⟩ := h
  rintro ⟨other,hother,htext'⟩
  rw [htext] at htext'
  have hrest : suffix ++ '_' :: rest = other := by simpa using htext'
  have hin : '_' ∈ other := by
    rw [← hrest]
    simp
  exact underscore_notMem_suffix hother hin

theorem exists_parse_iff {value : String} :
    (∃ id, ExternalId.parse value (some .key) = .ok id) ↔
      IdGrammar (trim value) ∨ FurtherPart (trim value) := by
  rw [← splitUnderscores_id]
  simp only [parse_eq_ok]
  constructor
  · rintro ⟨id,hkey,hsuffix,-⟩
    exact ⟨hkey,hsuffix⟩
  · rintro ⟨hkey,hsuffix⟩
    exact ⟨_,hkey,hsuffix,rfl⟩

theorem isTrimmed_idCharacter {c : Char} (h : isIdCharacter c) : isTrimmed c = false := by
  have hval : c.toNat = c.val.toNat := rfl
  simp only [isIdCharacter,Bool.or_eq_true,Bool.and_eq_true,decide_eq_true_eq,Char.le_def,
    UInt32.le_iff_toNat_le] at h
  simp at h
  simp only [isTrimmed,Bool.or_eq_false_iff,Bool.and_eq_false_iff,decide_eq_false_iff_not]
  omega

theorem trim_of_grammar {text : String} (h : IdGrammar text) : trim text = text := by
  obtain ⟨suffix,hsuffix,htext⟩ := h
  have hne : suffix ≠ [] := List.length_pos_iff.mp hsuffix.1
  have htrim : trimText text.toList = text.toList := by
    rw [htext]
    apply trimText_of_ends
    · intro c hc
      cases hc
      decide
    · intro c hc
      have hin : c ∈ suffix := by
        rw [List.getLast?_append_cons,List.getLast?_cons_of_ne_nil hne] at hc
        exact List.mem_of_getLast? hc
      exact isTrimmed_idCharacter (hsuffix.2.2 c hin)
  rw [trim,htrim,String.ofList_toList]

theorem idSuffix_random (uuid : RandomUuid) : IdSuffix (randomSuffix uuid).toList := by
  have hsplit := List.length_eq_countP_add_countP (fun c : Char => decide (c = '-'))
    (l := uuid.text.toList)
  have hkept : (uuid.text.toList.filter (· ≠ '-')).length = 32 := by
    rw [← List.countP_eq_length_filter]
    have hlength := uuid.length
    have hdashes := uuid.dashes
    simp only [decide_not] at hsplit ⊢
    simp at hsplit hdashes ⊢
    omega
  have hlength : (randomSuffix uuid).toList.length = 24 := by
    rw [randomSuffix,String.toList_ofList,List.length_take,hkept]
    rfl
  refine ⟨by omega,by omega,?_⟩
  intro c hc
  rw [randomSuffix,String.toList_ofList] at hc
  obtain ⟨hin,hdash⟩ := List.mem_filter.mp (List.mem_of_mem_take hc)
  have hdigit := uuid.digits c hin (by simpa using hdash)
  simp only [Char.isDigit,isIdCharacter,Bool.or_eq_true,Bool.and_eq_true,decide_eq_true_eq,
    Char.le_def,ge_iff_le,UInt32.le_iff_toNat_le] at hdigit ⊢
  simp at hdigit ⊢
  omega

theorem create_random (uuid : RandomUuid) :
    ∃ id, ExternalId.create .key none uuid = .ok id ∧ IdGrammar id.value := by
  have hgrammar : IdGrammar (IdPrefix.key.text ++ "_" ++ randomSuffix uuid) := by
    refine ⟨_,idSuffix_random uuid,?_⟩
    simp [IdPrefix.text]
  have htrim := trim_of_grammar hgrammar
  rw [← htrim] at hgrammar
  obtain ⟨id,hparse⟩ := exists_parse_iff.mpr (.inl hgrammar)
  refine ⟨id,hparse,?_⟩
  rw [(parse_eq_ok.mp hparse).2.2]
  exact hgrammar

/-- The text is accepted iff it is well formed, and what is kept is the text that was checked. -/
structure OneGrammar (value : String) : Prop where
  accepted : (∃ id, ExternalId.parse value (some .key) = .ok id) ↔ IdGrammar (trim value)
  kept : ∀ id, ExternalId.parse value (some .key) = .ok id →
    id.value = trim value ∧ IdGrammar id.value

theorem oneGrammar_iff {value : String} : OneGrammar value ↔ ¬FurtherPart (trim value) := by
  constructor
  · intro h hfurther
    exact not_grammar_of_furtherPart hfurther
      (h.accepted.mp (exists_parse_iff.mpr (.inr hfurther)))
  · intro hnone
    constructor
    · rw [exists_parse_iff]
      constructor
      · rintro (h | h)
        · exact h
        · exact absurd h hnone
      · exact .inl
    · intro id hparse
      have hid := (parse_eq_ok.mp hparse).2.2
      rcases exists_parse_iff.mp ⟨id,hparse⟩ with h | h
      · rw [hid]
        exact ⟨rfl,h⟩
      · exact absurd h hnone

/-- The rest of the text behind a second `_` is kept unchecked: an id has the one grammar iff its
text does not go on with `_` behind a well formed id. Generated ids always have it. -/
theorem externalId_grammar (value : String) (uuid : RandomUuid) :
    (OneGrammar value ↔ ¬FurtherPart (trim value)) ∧
      ∃ id, ExternalId.create .key none uuid = .ok id ∧ IdGrammar id.value :=
  ⟨oneGrammar_iff,create_random uuid⟩

theorem not_oneGrammar_key_abc_def : ¬OneGrammar "key_abc_def!" := by
  have htrim : trim "key_abc_def!" = "key_abc_def!" := by decide
  have hfurther : FurtherPart (trim "key_abc_def!") := by
    rw [htrim]
    have hall : ∀ c ∈ "abc".toList, isIdCharacter c := List.all_eq_true.mp (by decide)
    exact ⟨"abc".toList,"def!".toList,⟨by decide,by decide,hall⟩,by decide⟩
  exact fun h => oneGrammar_iff.mp h hfurther

end OnlyDoge.Access
