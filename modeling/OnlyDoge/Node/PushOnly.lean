import OnlyDoge.Node.RawBlock
set_option autoImplicit false

/-! Null data scripts against Bitcoin's `IsPushOnly` (`dogecoin-raw-block.ts`). -/

namespace OnlyDoge

/-- The number of little endian bytes. -/
def littleEndian (bytes : List UInt8) : Nat :=
  bytes.foldr (fun byte length => length * 256 + byte.toNat) 0

/-- One complete push: an opcode up to `OP_16` with all data that it announces. -/
inductive PushOperation : List UInt8 → Prop where
  | direct (opcode : UInt8) (data : List UInt8) (hopcode : opcode < 0x4c)
      (hdata : data.length = opcode.toNat) : PushOperation (opcode::data)
  | sized (opcode : UInt8) (size data : List UInt8) (hlow : 0x4c ≤ opcode) (hhigh : opcode ≤ 0x4e)
      (hsize : size.length = pushLengthWidth opcode) (hdata : data.length = littleEndian size) :
      PushOperation (opcode::(size ++ data))
  | value (opcode : UInt8) (hlow : 0x4f ≤ opcode) (hhigh : opcode ≤ 0x60) :
      PushOperation [opcode]

/-- Bitcoin's `IsPushOnly`: the script is a concatenation of complete pushes. -/
def IsPushOnly (script : List UInt8) : Prop :=
  ∃ operations : List (List UInt8),
    (∀ operation ∈ operations, PushOperation operation) ∧ operations.flatten = script

/-- What the decoder does not take for a push: `OP_1NEGATE`, `OP_RESERVED` and a length of more
than 10,000 bytes. -/
def overlooked : List UInt8 → Bool
  | [] => false
  | opcode::rest =>
    opcode = 0x4f || opcode = 0x50 ||
      (0x4c ≤ opcode && opcode ≤ 0x4e &&
        decide (maxScriptPubkeyBytes < littleEndian (rest.take (pushLengthWidth opcode))))

/-- The length of the push at the head. -/
def operationSize : List UInt8 → Option Nat
  | [] => none
  | opcode::rest =>
    if opcode < 0x4c then
      if opcode.toNat ≤ rest.length then some (1 + opcode.toNat) else none
    else if opcode ≤ 0x4e then
      let width := pushLengthWidth opcode
      let length := littleEndian (rest.take width)
      if width + length ≤ rest.length then some (1 + (width + length)) else none
    else if opcode ≤ 0x60 then some 1
    else none

variable {operation rest script : List UInt8} {operations : List (List UInt8)} {opcode : UInt8}

theorem operationSize_append (h : PushOperation operation) :
    operationSize (operation ++ rest) = some operation.length := by
  cases h with
  | direct opcode data hopcode hdata =>
    have hle : opcode.toNat ≤ (data ++ rest).length := by
      rw [List.length_append]
      omega
    rw [List.cons_append,operationSize,if_pos hopcode,if_pos hle,List.length_cons,hdata,
      Nat.add_comm]
  | sized opcode size data hlow hhigh hsize hdata =>
    have htake : (size ++ data ++ rest).take (pushLengthWidth opcode) = size := by
      rw [← hsize,List.append_assoc,List.take_left']
      rfl
    have hnot : ¬opcode < 0x4c := UInt8.not_lt.mpr hlow
    simp only [List.cons_append,operationSize,hnot,if_false,hhigh,if_true,htake]
    rw [if_pos (by simp only [List.length_append]; omega)]
    simp only [List.length_cons,List.length_append]
    congr 1
    omega
  | value opcode hlow hhigh =>
    have hnot : ¬opcode < 0x4c := by
      simp only [UInt8.lt_iff_toNat_lt,UInt8.le_iff_toNat_le] at hlow ⊢
      simp at hlow ⊢
      omega
    have hnot' : ¬opcode ≤ 0x4e := by
      simp only [UInt8.le_iff_toNat_le] at hlow ⊢
      simp at hlow ⊢
      omega
    simp [operationSize,hnot,hnot',hhigh]

theorem overlooked_append (h : PushOperation operation) :
    overlooked (operation ++ rest) = overlooked operation := by
  cases h with
  | direct opcode data hopcode hdata =>
    have hnot : ¬0x4c ≤ opcode := UInt8.not_le.mpr hopcode
    simp [overlooked,hnot]
  | sized opcode size data hlow hhigh hsize hdata =>
    simp only [List.cons_append,overlooked,List.append_assoc]
    rw [← hsize,List.take_left' rfl,List.take_left' rfl]
  | value opcode hlow hhigh =>
    have hnot' : ¬opcode ≤ 0x4e := by
      simp only [UInt8.le_iff_toNat_le] at hlow ⊢
      simp at hlow ⊢
      omega
    simp [overlooked,hnot']

theorem pushOperation_of_size {bytes : List UInt8} {n : Nat} (h : operationSize bytes = some n) :
    ∃ operation rest, bytes = operation ++ rest ∧ operation.length = n ∧
      PushOperation operation := by
  cases bytes with
  | nil => cases h
  | cons opcode tail =>
    simp only [operationSize] at h
    split at h
    · rename_i hopcode
      split at h
      · rename_i hle
        cases h
        refine ⟨opcode::tail.take opcode.toNat,tail.drop opcode.toNat,?_,?_,?_⟩
        · simp
        · simp
          omega
        · exact .direct opcode _ hopcode (by rw [List.length_take]; omega)
      · cases h
    · rename_i hlow
      split at h
      · rename_i hhigh
        split at h
        · rename_i hle
          cases h
          let width := pushLengthWidth opcode
          let length := littleEndian (tail.take width)
          have hparts : tail = (tail.take width ++ (tail.drop width).take length) ++
              (tail.drop width).drop length := by
            rw [List.append_assoc,List.take_append_drop,List.take_append_drop]
          have hsize : (tail.take width).length = pushLengthWidth opcode := by
            simp only [List.length_take,width]
            omega
          have hdata : ((tail.drop width).take length).length = littleEndian (tail.take width) := by
            simp only [List.length_take,List.length_drop,length,width]
            omega
          refine ⟨opcode::(tail.take width ++ (tail.drop width).take length),
            (tail.drop width).drop length,?_,?_,?_⟩
          · rw [List.cons_append,← hparts]
          · rw [List.length_cons,List.length_append,hsize,hdata,Nat.add_comm]
          · exact .sized opcode _ _ (UInt8.not_lt.mp hlow) hhigh hsize hdata
        · cases h
      · rename_i hhigh
        split at h
        · rename_i hvalue
          cases h
          refine ⟨[opcode],tail,rfl,rfl,.value opcode ?_ hvalue⟩
          simp only [UInt8.le_iff_toNat_le] at hhigh ⊢
          simp at hhigh ⊢
          omega
        · cases h

theorem operations_unique {others : List (List UInt8)}
    (h : ∀ operation ∈ operations, PushOperation operation)
    (hothers : ∀ operation ∈ others, PushOperation operation)
    (hsame : operations.flatten = others.flatten) : operations = others := by
  have hne {operation : List UInt8} (hop : PushOperation operation) : operation ≠ [] := by
    cases hop <;> simp
  induction operations generalizing others with
  | nil =>
    cases others with
    | nil => rfl
    | cons other others =>
      have hother := hne (hothers other List.mem_cons_self)
      simp only [List.flatten_nil,List.flatten_cons] at hsame
      exact absurd (List.append_eq_nil_iff.mp hsame.symm).1 hother
  | cons operation operations ih =>
    have hop := h operation List.mem_cons_self
    cases others with
    | nil =>
      simp only [List.flatten_nil,List.flatten_cons] at hsame
      exact absurd (List.append_eq_nil_iff.mp hsame).1 (hne hop)
    | cons other others =>
      have hother := hothers other List.mem_cons_self
      simp only [List.flatten_cons] at hsame
      have hsize := @operationSize_append _ operations.flatten hop
      rw [hsame,operationSize_append hother] at hsize
      obtain ⟨hfirst,hrest⟩ := List.append_inj hsame (Option.some.inj hsize).symm
      rw [hfirst,ih (fun o ho => h o (List.mem_cons_of_mem _ ho))
        (fun o ho => hothers o (List.mem_cons_of_mem _ ho)) hrest]

theorem pushLengthFromBytes_eq (script : List UInt8) (offset width : Nat)
    (hoffset : offset ≤ script.length) :
    pushLengthFromBytes script offset width =
      if width ≤ (script.drop offset).length ∧
          littleEndian ((script.drop offset).take width) ≤ maxScriptPubkeyBytes then
        some (offset + width,littleEndian ((script.drop offset).take width))
      else none := by
  have hbytes : subarray script offset (offset + width) = (script.drop offset).take width := by
    simp [subarray]
  unfold pushLengthFromBytes
  rw [hbytes,List.length_drop]
  by_cases hwidth : offset + width > script.length
  · rw [if_pos hwidth,if_neg (by omega)]
  · rw [if_neg hwidth]
    change (if littleEndian ((script.drop offset).take width) > maxScriptPubkeyBytes then none
      else some (offset + width,littleEndian ((script.drop offset).take width))) = _
    by_cases hlong : littleEndian ((script.drop offset).take width) > maxScriptPubkeyBytes
    · rw [if_pos hlong,if_neg (by omega)]
    · rw [if_neg hlong,if_pos (by omega)]

theorem opcode_cases (opcode : UInt8) :
    opcode < 0x4c ∨ opcode = 0x4c ∨ opcode = 0x4d ∨ opcode = 0x4e ∨ opcode = 0x4f ∨
      opcode = 0x50 ∨ 0x51 ≤ opcode := by
  simp only [UInt8.lt_iff_toNat_lt,UInt8.le_iff_toNat_le,← UInt8.toNat_inj]
  simp
  omega

/-- A push that gives its length in bytes of its own is read iff the length is at most the limit
and everything lies inside the script. -/
theorem readPush_sized {width offset : Nat} {tail : List UInt8}
    (hopcode : script[offset]? = some opcode) (hlow : 0x4c ≤ opcode) (hhigh : opcode ≤ 0x4e)
    (hlength : pushLength script offset opcode = pushLengthFromBytes script (offset + 1) width)
    (htail : script.drop (offset + 1) = tail) (hscript : script.length = offset + 1 + tail.length) :
    (readPush script offset).map (·.nextOffset) =
      if maxScriptPubkeyBytes < littleEndian (tail.take width) then none
      else if width + littleEndian (tail.take width) ≤ tail.length then
        some (offset + (1 + (width + littleEndian (tail.take width))))
      else none := by
  have hnotHigh : ¬opcode > 0x60 := by
    simp only [gt_iff_lt,UInt8.lt_iff_toNat_lt,UInt8.le_iff_toNat_le] at hhigh ⊢
    simp at hhigh ⊢
    omega
  have hnotValue : ¬(opcode ≥ 0x51 ∨ opcode = 0x00) := by
    simp only [ge_iff_le,UInt8.le_iff_toNat_le,← UInt8.toNat_inj] at hlow hhigh ⊢
    simp at hlow hhigh ⊢
    omega
  unfold readPush
  simp only [hopcode,hnotHigh,hnotValue,if_false,hlength]
  rw [pushLengthFromBytes_eq script (offset + 1) width (by omega),htail]
  by_cases hlong : maxScriptPubkeyBytes < littleEndian (tail.take width)
  · rw [if_neg (by omega),if_pos hlong]
    rfl
  · rw [if_neg hlong]
    by_cases hin : width + littleEndian (tail.take width) ≤ tail.length
    · have hnot : ¬offset + 1 + width + littleEndian (tail.take width) > script.length := by omega
      rw [if_pos (by omega),if_pos hin]
      simp only [hnot,if_false,Option.map_some]
      congr 1
      omega
    · rw [if_neg hin]
      by_cases hwidth : width ≤ tail.length
      · have hover : offset + 1 + width + littleEndian (tail.take width) > script.length := by omega
        rw [if_pos (by omega)]
        simp only [hover,if_true,Option.map_none]
      · rw [if_neg (by omega)]
        rfl

theorem readPush_eq (script : List UInt8) (offset : Nat) :
    (readPush script offset).map (·.nextOffset) =
      if overlooked (script.drop offset) then none
      else (operationSize (script.drop offset)).map (offset + ·) := by
  cases hdrop : script.drop offset with
  | nil =>
    have hnone : script[offset]? = none := by
      rw [← List.head?_drop,hdrop]
      rfl
    simp [readPush,hnone,overlooked,operationSize]
  | cons opcode tail =>
    have hopcode : script[offset]? = some opcode := by
      rw [← List.head?_drop,hdrop]
      rfl
    have htail : script.drop (offset + 1) = tail := by
      rw [← List.drop_drop,hdrop]
      rfl
    have hlength : script.length = offset + 1 + tail.length := by
      have hsum := congrArg List.length hdrop
      simp only [List.length_drop,List.length_cons] at hsum
      omega
    rcases opcode_cases opcode with hdirect | rfl | rfl | rfl | rfl | rfl | hhigh
    · have hnot : ¬0x4c ≤ opcode := UInt8.not_le.mpr hdirect
      have hnotHigh : ¬opcode > 0x60 := by
        simp only [gt_iff_lt,UInt8.lt_iff_toNat_lt] at hdirect ⊢
        simp at hdirect ⊢
        omega
      have hnotValue : ¬opcode ≥ 0x51 := by
        simp only [ge_iff_le,UInt8.le_iff_toNat_le,UInt8.lt_iff_toNat_lt] at hdirect ⊢
        simp at hdirect ⊢
        omega
      have hnotNegate : opcode ≠ 0x4f ∧ opcode ≠ 0x50 := by
        simp only [UInt8.lt_iff_toNat_lt,ne_eq,← UInt8.toNat_inj] at hdirect ⊢
        simp at hdirect ⊢
        omega
      by_cases hzero : opcode = 0
      · subst hzero
        simp [readPush,hopcode,overlooked,operationSize]
      · by_cases hin : opcode.toNat ≤ tail.length
        · have hnotOver : ¬offset + 1 + opcode.toNat > script.length := by omega
          simp [readPush,hopcode,hnotHigh,hnotValue,hzero,pushLength,hdirect,hnotOver,
            overlooked,hnot,
            hnotNegate,operationSize,hin]
          omega
        · have hover : offset + 1 + opcode.toNat > script.length := by omega
          simp [readPush,hopcode,hnotHigh,hnotValue,hzero,pushLength,hdirect,hover,overlooked,hnot,
            hnotNegate,operationSize,hin]
    · have hsized := @readPush_sized script _ 1 offset tail hopcode (by decide) (by decide)
        (by simp [pushLength]) htail hlength
      simpa [overlooked,operationSize,pushLengthWidth,apply_ite] using hsized
    · have hsized := @readPush_sized script _ 2 offset tail hopcode (by decide) (by decide)
        (by simp [pushLength]) htail hlength
      simpa [overlooked,operationSize,pushLengthWidth,apply_ite] using hsized
    · have hsized := @readPush_sized script _ 4 offset tail hopcode (by decide) (by decide)
        (by simp [pushLength]) htail hlength
      simpa [overlooked,operationSize,pushLengthWidth,apply_ite] using hsized
    · simp [readPush,hopcode,pushLength,overlooked]
    · simp [readPush,hopcode,pushLength,overlooked]
    · have hnot : ¬opcode < 0x4c ∧ ¬opcode ≤ 0x4e ∧ opcode ≠ 0x4f ∧ opcode ≠ 0x50 := by
        simp only [UInt8.le_iff_toNat_le,UInt8.lt_iff_toNat_lt,ne_eq,← UInt8.toNat_inj] at hhigh ⊢
        simp at hhigh ⊢
        omega
      obtain ⟨hnotDirect,hnotSized,hnotNegate,hnotReserved⟩ := hnot
      by_cases hpush : opcode ≤ 0x60
      · have hnotHigh : ¬opcode > 0x60 := UInt8.not_lt.mpr hpush
        simp [readPush,hopcode,hnotHigh,hhigh,overlooked,operationSize,hnotDirect,hnotSized,
          hnotNegate,hnotReserved,hpush]
      · have hover : opcode > 0x60 := UInt8.not_le.mp hpush
        simp [readPush,hopcode,hover,overlooked,operationSize,hnotDirect,hnotSized,hnotNegate,
          hnotReserved,hpush]

theorem readPush_isSome (script : List UInt8) (offset : Nat) (next : Nat) :
    (readPush script offset).map (·.nextOffset) = some next ↔
      ∃ operation rest, script.drop offset = operation ++ rest ∧ PushOperation operation ∧
        overlooked operation = false ∧ next = offset + operation.length := by
  rw [readPush_eq]
  constructor
  · intro h
    split at h
    · cases h
    · rename_i hread
      obtain ⟨size,hsize,rfl⟩ := Option.map_eq_some_iff.mp h
      obtain ⟨operation,rest,hdrop,rfl,hop⟩ := pushOperation_of_size hsize
      rw [hdrop,overlooked_append hop] at hread
      exact ⟨operation,rest,hdrop,hop,by simpa using hread,rfl⟩
  · rintro ⟨operation,rest,hdrop,hop,hread,rfl⟩
    rw [hdrop,overlooked_append hop,hread,operationSize_append hop]
    simp

theorem readPushesFrom_isSome (script : List UInt8) (offset : Nat) :
    (readPushesFrom script offset).1.isSome ↔
      ∃ operations : List (List UInt8),
        (∀ operation ∈ operations, PushOperation operation ∧ overlooked operation = false) ∧
          operations.flatten = script.drop offset := by
  fun_induction readPushesFrom script offset with
  | case1 offset hin hpush =>
    simp only [Option.isSome_none,Bool.false_eq_true,false_iff]
    rintro ⟨operations,hops,hflatten⟩
    cases operations with
    | nil =>
      have hlength := congrArg List.length hflatten
      simp only [List.flatten_nil,List.length_nil,List.length_drop] at hlength
      omega
    | cons operation operations =>
      obtain ⟨hop,hread⟩ := hops operation List.mem_cons_self
      have hsome := (readPush_isSome script offset (offset + operation.length)).mpr
        ⟨operation,operations.flatten,hflatten.symm,hop,hread,rfl⟩
      rw [hpush] at hsome
      cases hsome
  | case2 offset hin push hpush rest ih =>
    rw [Option.isSome_map]
    obtain ⟨first,tail,hdrop,hfirst,hread,hnext⟩ :=
      (readPush_isSome script offset push.nextOffset).mp (by rw [hpush]; rfl)
    have htail : script.drop push.nextOffset = tail := by
      rw [hnext,← List.drop_drop,hdrop,List.drop_left]
    rw [ih,htail]
    constructor
    · rintro ⟨operations,hops,hflatten⟩
      refine ⟨first::operations,?_,?_⟩
      · exact List.forall_mem_cons.mpr ⟨⟨hfirst,hread⟩,hops⟩
      · rw [List.flatten_cons,hflatten,hdrop]
    · rintro ⟨operations,hops,hflatten⟩
      cases operations with
      | nil =>
        have hlength := congrArg List.length hflatten
        simp only [List.flatten_nil,List.length_nil,List.length_drop] at hlength
        omega
      | cons operation operations =>
        obtain ⟨⟨hop,-⟩,hrest⟩ := List.forall_mem_cons.mp hops
        rw [List.flatten_cons,hdrop] at hflatten
        have hsize := @operationSize_append _ operations.flatten hop
        rw [hflatten,operationSize_append hfirst] at hsize
        exact ⟨operations,hrest,(List.append_inj hflatten (Option.some.inj hsize).symm).2⟩
  | case3 offset hout =>
    have hnil : script.drop offset = [] := List.drop_eq_nil_of_le (by omega)
    simp only [Option.isSome_some,true_iff,hnil]
    exact ⟨[],by simp,rfl⟩

theorem isPushOnly_iff (script : List UInt8) :
    isPushOnly script ↔
      ∃ operations : List (List UInt8),
        (∀ operation ∈ operations, PushOperation operation ∧ overlooked operation = false) ∧
          operations.flatten = script := by
  have hall := readPushesFrom_isSome script 0
  rw [List.drop_zero] at hall
  exact hall

section Classify
variable (digests : Digests) (prefixes : DogecoinAddressPrefixes)

theorem isPlausiblePubkey_length {pubkey : List UInt8} (h : isPlausiblePubkey pubkey) :
    pubkey.length = 33 ∨ pubkey.length = 65 := by
  unfold isPlausiblePubkey at h
  by_cases hshort : pubkey.length = 33
  · exact .inl hshort
  · by_cases hlong : pubkey.length = 65
    · exact .inr hlong
    · simp [hshort,hlong] at h

/-- Scripts that start with `OP_RETURN` have none of the forms tried before null data. -/
theorem earlier_forms_none (hfirst : script[0]? = some 0x6a) :
    matchPubkeyHash digests prefixes script = none ∧
      matchScriptHash digests prefixes script = none ∧
        matchPubkey digests prefixes script = none := by
  refine ⟨?_,?_,?_⟩
  · rw [matchPubkeyHash,if_neg]
    simp [hfirst]
  · rw [matchScriptHash,if_neg]
    simp [hfirst]
  · simp only [matchPubkey,hfirst]
    by_cases hlength : script.length = (0x6a : UInt8).toNat + 2
    · have hpubkey : (subarray script 1 (1 + (0x6a : UInt8).toNat)).length = 106 := by
        simp [subarray,hlength]
      have himplausible : ¬isPlausiblePubkey (subarray script 1 (1 + (0x6a : UInt8).toNat)) := by
        intro hplausible
        have hlengths := isPlausiblePubkey_length hplausible
        omega
      rw [if_neg (not_not_intro hlength),if_neg himplausible]
      exact ite_self none
    · rw [if_pos hlength]

theorem other_forms_type {found : ScriptMatch}
    (h : matchPubkeyHash digests prefixes script = some found ∨
      matchScriptHash digests prefixes script = some found ∨
      matchPubkey digests prefixes script = some found ∨
      matchMultisig digests prefixes script = some found) : found.type ≠ .nulldata := by
  rcases h with h | h | h | h
  · unfold matchPubkeyHash at h
    split at h
    · cases h
      simp
    · cases h
  · unfold matchScriptHash at h
    split at h
    · cases h
      simp
    · cases h
  · cases hfirst : script[0]? with
    | none => simp [matchPubkey,hfirst] at h
    | some pushLength =>
      simp only [matchPubkey,hfirst] at h
      repeat' split at h
      all_goals cases h
      simp
  · unfold matchMultisig at h
    split at h
    · cases h
    · cases h
      simp

theorem matchNullData_eq :
    matchNullData script =
      if script[0]? = some 0x6a ∧ isPushOnly (script.drop 1) then some ⟨none,none,.nulldata⟩
      else none := by
  unfold matchNullData
  by_cases hfirst : script[0]? = some 0x6a
  · rw [if_neg (not_not_intro hfirst)]
    simp [hfirst]
  · rw [if_pos hfirst,if_neg (fun h => hfirst h.1)]

/-- No other form starts with `OP_RETURN`, and no other form is null data. -/
theorem classify_nulldata (script : List UInt8) :
    (classifyScriptPubKey digests prefixes script).type = .nulldata ↔
      script[0]? = some 0x6a ∧ isPushOnly (script.drop 1) := by
  have htype {found : ScriptMatch} := @other_forms_type script digests prefixes found
  constructor
  · intro h
    by_contra hnot
    unfold classifyScriptPubKey at h
    rw [matchNullData_eq,if_neg hnot] at h
    cases hhash : matchPubkeyHash digests prefixes script with
    | some found =>
      simp only [hhash,Option.some_or] at h
      exact htype (.inl hhash) h
    | none =>
      cases hscript : matchScriptHash digests prefixes script with
      | some found =>
        simp only [hhash,hscript,Option.none_or,Option.some_or] at h
        exact htype (.inr (.inl hscript)) h
      | none =>
        cases hkey : matchPubkey digests prefixes script with
        | some found =>
          simp only [hhash,hscript,hkey,Option.none_or,Option.some_or] at h
          exact htype (.inr (.inr (.inl hkey))) h
        | none =>
          cases hmulti : matchMultisig digests prefixes script with
          | some found =>
            simp only [hhash,hscript,hkey,hmulti,Option.none_or] at h
            exact htype (.inr (.inr (.inr hmulti))) h
          | none => simp [hhash,hscript,hkey,hmulti] at h
  · intro h
    obtain ⟨hhash,hscript,hkey⟩ := @earlier_forms_none script digests prefixes h.1
    unfold classifyScriptPubKey
    rw [hhash,hscript,hkey,matchNullData_eq,if_pos h]
    rfl

/-- `classifyScriptPubKey` says null data iff the script is `OP_RETURN` and pushes. -/
def NullDataIffPushOnly (script : List UInt8) : Prop :=
  (classifyScriptPubKey digests prefixes script).type = .nulldata ↔
    ∃ data, script = 0x6a::data ∧ IsPushOnly data

/-- `OP_RETURN` and pushes among which the decoder overlooks one. -/
def OverlooksPush (script : List UInt8) : Prop :=
  ∃ operations : List (List UInt8), (∀ operation ∈ operations, PushOperation operation) ∧
    script = 0x6a::operations.flatten ∧ ∃ operation ∈ operations, overlooked operation

theorem isSome_head {data : List UInt8} (h : script = 0x6a::data) :
    script[0]? = some 0x6a ∧ script.drop 1 = data := by
  rw [h]
  exact ⟨rfl,rfl⟩

/-- The operations of a script are its own, so one that Bitcoin allows and the decoder does not
stands in no list that the decoder reads. -/
theorem not_nullDataIffPushOnly {script : List UInt8} (h : OverlooksPush script) :
    ¬NullDataIffPushOnly digests prefixes script := by
  unfold NullDataIffPushOnly
  rw [classify_nulldata,isPushOnly_iff]
  intro hiff
  obtain ⟨operations,hops,hscript,operation,hin,hover⟩ := h
  obtain ⟨-,others,hothers,hflatten⟩ := hiff.mpr ⟨_,hscript,operations,hops,rfl⟩
  rw [(isSome_head hscript).2] at hflatten
  have hsame := operations_unique hops (fun other hother => (hothers other hother).1)
    hflatten.symm
  rw [hsame] at hin
  rw [(hothers operation hin).2] at hover
  cases hover

/-- The decoder's null data scripts are Bitcoin's but for those with `OP_1NEGATE`, `OP_RESERVED` or
a length over 10,000 among their pushes. -/
theorem nullData_iff_pushOnly (script : List UInt8) :
    NullDataIffPushOnly digests prefixes script ↔ ¬OverlooksPush script := by
  refine ⟨fun hiff hover => not_nullDataIffPushOnly digests prefixes hover hiff,fun hread => ?_⟩
  unfold NullDataIffPushOnly
  rw [classify_nulldata,isPushOnly_iff]
  constructor
  · rintro ⟨hfirst,operations,hops,hflatten⟩
    cases script with
    | nil => cases hfirst
    | cons opcode data =>
      simp only [List.getElem?_cons_zero,Option.some.injEq] at hfirst
      exact ⟨data,by rw [hfirst],operations,fun operation hin => (hops operation hin).1,hflatten⟩
  · rintro ⟨data,hscript,operations,hops,hflatten⟩
    obtain ⟨hfirst,hdrop⟩ := isSome_head hscript
    refine ⟨hfirst,operations,?_,by rw [hflatten,hdrop]⟩
    intro operation hin
    refine ⟨hops operation hin,?_⟩
    by_contra hover
    refine hread ⟨operations,hops,by rw [hflatten,hscript],operation,hin,?_⟩
    simpa using hover

theorem not_nullData_negate :
    ¬NullDataIffPushOnly ⟨id,id⟩ dogecoinMainnetAddressPrefixes [0x6a,0x4f] :=
  not_nullDataIffPushOnly _ _ ⟨[[0x4f]],
    by simpa using PushOperation.value 0x4f (by decide) (by decide),rfl,[0x4f],by simp,by decide⟩

end Classify

end OnlyDoge
