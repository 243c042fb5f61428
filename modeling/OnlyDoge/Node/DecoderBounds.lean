import OnlyDoge.Node.RawBlock
import Mathlib.Data.List.Forall2
set_option autoImplicit false

/-! The decoder on arbitrary bytes: its loops, its reads and the spans it accepts. -/

namespace OnlyDoge
open Reader

theorem pushIterations_le {script : List UInt8} {offset : Nat} (h : offset < script.length) :
    pushIterations script offset ≤ script.length - offset := by
  unfold pushIterations
  rw [List.getElem?_eq_getElem h]
  simp only
  split <;> omega

theorem pushLengthFromBytes_offset {script : List UInt8} {offset width : Nat} {r : Nat × Nat}
    (h : pushLengthFromBytes script offset width = some r) :
    r.1 = offset + width := by
  unfold pushLengthFromBytes at h
  split at h
  · cases h
  · simp only at h
    split at h
    · cases h
    · cases h
      rfl

theorem pushLengthWidth_short {opcode : UInt8} (h : opcode < 0x4c ∨ opcode ≥ 0x51) :
    pushLengthWidth opcode = 0 := by
  have hne (n : UInt8) (hn : ¬(n < 0x4c ∨ n ≥ 0x51)) : opcode ≠ n := by
    rintro rfl
    exact hn h
  unfold pushLengthWidth
  rw [if_neg (hne 0x4c (by decide)),if_neg (hne 0x4d (by decide)),if_neg (hne 0x4e (by decide))]

theorem pushLength_width {script : List UInt8} {offset : Nat} {opcode : UInt8} {r : Nat × Nat}
    (h : pushLength script offset opcode = some r) :
    r.1 = offset + 1 + pushLengthWidth opcode := by
  unfold pushLength at h
  split at h
  · rename_i hsmall
    cases h
    rw [pushLengthWidth_short (Or.inl hsmall)]
  split at h
  · rename_i hop
    rw [pushLengthFromBytes_offset h,hop]
    rfl
  split at h
  · rename_i hop
    rw [pushLengthFromBytes_offset h,hop]
    rfl
  split at h
  · rename_i hop
    rw [pushLengthFromBytes_offset h,hop]
    rfl
  · cases h

theorem pushIterations_read {script : List UInt8} {offset : Nat} {push : Push}
    (h : readPush script offset = some push) :
    offset + pushIterations script offset ≤ push.nextOffset := by
  unfold readPush at h
  unfold pushIterations
  cases hop : script[offset]? with
  | none => simp [hop] at h
  | some opcode =>
    simp only [hop] at h ⊢
    split at h
    · cases h
    split at h
    · rename_i hshort
      cases h
      have hwidth : pushLengthWidth opcode = 0 := by
        rcases hshort with hshort | rfl
        · exact pushLengthWidth_short (Or.inr hshort)
        · rfl
      simp only [hwidth]
      split <;> omega
    cases hl : pushLength script offset opcode with
    | none => simp [hl] at h
    | some r =>
      have hstart := pushLength_width hl
      simp only [hl] at h
      split at h
      · cases h
      · cases h
        simp only
        split <;> omega

theorem readPushesFrom_iterations (script : List UInt8) (offset : Nat) :
    (readPushesFrom script offset).2 ≤ script.length - offset := by
  fun_induction readPushesFrom script offset with
  | case1 offset hlt hpush => exact pushIterations_le hlt
  | case2 offset hlt push hpush rest ih =>
    have hread := pushIterations_read hpush
    have hle := pushIterations_le hlt
    have hrest : rest.2 ≤ script.length - push.nextOffset := ih
    simp only
    omega
  | case3 => exact Nat.zero_le _

theorem classifyIterations_le (script : List UInt8) :
    classifyIterations script ≤ script.length := by
  have hdata := readPushesFrom_iterations (script.drop 1) 0
  have hkeys := readPushesFrom_iterations (subarray script 1 (script.length - 2)) 0
  have hdrop : (script.drop 1).length ≤ script.length := by
    rw [List.length_drop]
    omega
  have hsub : (subarray script 1 (script.length - 2)).length ≤ script.length := by
    unfold subarray
    rw [List.length_take,List.length_drop]
    omega
  unfold classifyIterations
  by_cases hreturn : script[0]? = some 0x6a
  · have hcounts : multisigCounts script = none := by
      unfold multisigCounts
      rw [hreturn]
      split
      · rfl
      · rfl
    rw [if_neg (not_not.mpr hreturn),hcounts]
    simp only
    omega
  · rw [if_pos hreturn]
    cases multisigCounts script with
    | none => exact Nat.zero_le _
    | some counts =>
      simp only
      omega

section Readers
variable {given : Nat}

theorem metered_peekBytes {n : Nat} : Metered given (ByteReader.peek n) given := metered_peek

theorem metered_skipBytes {n : Nat} : Metered given (ByteReader.skip n) (given + n) := metered_skip

theorem metered_read {n : Nat} : Metered given (ByteReader.read n) (given + n) :=
  metered_bind metered_peekBytes (fun _ => metered_bind metered_skipBytes
    (fun _ => metered_pure _ (Nat.le_refl _)))

theorem read_length {n : Nat} {c d : Cursor UInt8} {bytes : List UInt8}
    (h : ByteReader.read n c = (.ok bytes,d)) : bytes.length = n := by
  obtain ⟨value,d',hpeek,hrest⟩ := bind_ok_iff.mp h
  obtain ⟨_,_,-,hpure⟩ := bind_ok_iff.mp hrest
  cases hpure
  unfold ByteReader.peek Reader.peek at hpeek
  split at hpeek
  · cases hpeek
  · cases hpeek
    rw [List.length_take,List.length_drop]
    omega

theorem metered_readUint32LE : Metered given ByteReader.readUint32LE (given + 4) :=
  metered_bind metered_read (fun _ => metered_pure _ (Nat.le_refl _))

theorem metered_readInt32LE : Metered given ByteReader.readInt32LE (given + 4) :=
  metered_bind metered_readUint32LE (fun _ => metered_pure _ (Nat.le_refl _))

theorem metered_readInt64LE : Metered given ByteReader.readInt64LE (given + 8) :=
  metered_bind metered_readUint32LE (fun _ => metered_bind metered_readUint32LE
    (fun _ => metered_pure _ (Nat.le_refl _)))

theorem metered_readHash : Metered given ByteReader.readHash (given + 32) :=
  metered_bind metered_read (fun _ => metered_pure _ (Nat.le_refl _))

theorem metered_readCompactSize : Metered given ByteReader.readCompactSize (given + 1) := by
  refine metered_bind metered_read (fun first => ?_)
  split
  · exact metered_pure _ (Nat.le_refl _)
  split
  · exact metered_bind metered_read (fun _ => metered_pure _ (by omega))
  split
  · exact metered_mono metered_readUint32LE (Nat.le_refl _) (by omega)
  · exact metered_throw _

theorem metered_assertConsumed : Metered given ByteReader.assertConsumed given := by
  refine metered_bind metered_offset (fun _ => metered_bind metered_length (fun _ => ?_))
  split
  · exact metered_pure _ (Nat.le_refl _)
  · exact metered_throw _

theorem assertConsumed_offset (c : Cursor UInt8) :
    (ByteReader.assertConsumed c).2.offset = c.offset := by
  rw [assertConsumed_run]
  split <;> rfl

theorem metered_skipHashVector : Metered given skipHashVector (given + 1) :=
  metered_bind metered_readCompactSize (fun _ =>
    metered_mono metered_skipBytes (Nat.le_refl _) (by omega))

theorem metered_skipSized : Metered given skipSized (given + 1) :=
  metered_bind metered_readCompactSize (fun _ =>
    metered_mono metered_skipBytes (Nat.le_refl _) (by omega))

theorem metered_skipInput : Metered given skipInput (given + 1) :=
  metered_bind metered_skipBytes (fun _ => metered_bind metered_skipSized
    (fun _ => metered_mono metered_skipBytes (Nat.le_refl _) (by omega)))

theorem metered_skipOutput : Metered given skipOutput (given + 1) :=
  metered_bind metered_skipBytes (fun _ =>
    metered_mono metered_skipSized (Nat.le_refl _) (by omega))

/-- The count pays for the first iteration of its loop, and a loop for what follows it. -/
theorem metered_skipWitness : Metered given skipWitness (given + 1) :=
  metered_bind metered_readCompactSize (fun items =>
    metered_bind (metered_times (fun _ => metered_skipSized) items)
      (fun _ => metered_pure _ (Nat.le_refl _)))

theorem metered_skipWitnesses {inputs : Nat} :
    Metered (given + 1) (skipWitnesses inputs) (given + 1) :=
  metered_bind (metered_times (fun _ => metered_skipWitness) inputs)
    (fun _ => metered_pure _ (Nat.le_refl _))

theorem metered_readInputCount : Metered given readInputCount (given + 1) := by
  refine metered_bind metered_readCompactSize (fun inputs => ?_)
  split
  · refine metered_bind metered_peekBytes (fun flag => ?_)
    split
    · refine metered_bind metered_skipBytes (fun _ => ?_)
      exact metered_bind metered_readCompactSize (fun _ => metered_pure _ (by omega))
    · exact metered_pure _ (Nat.le_refl _)
  · exact metered_pure _ (Nat.le_refl _)

theorem metered_skipTransaction : Metered given skipTransaction (given + 1) := by
  refine metered_bind metered_skipBytes (fun _ => ?_)
  refine metered_bind metered_readInputCount (fun counted => ?_)
  refine metered_bind (metered_times (fun _ => metered_skipInput) counted.1) (fun _ => ?_)
  refine metered_bind metered_readCompactSize (fun outputs => ?_)
  refine metered_bind (metered_times (fun _ => metered_skipOutput) outputs) (fun _ => ?_)
  exact metered_bind (metered_when metered_skipWitnesses (Nat.le_refl _))
    (fun _ => metered_mono metered_skipBytes (Nat.le_refl _) (by omega))

variable (digests : Digests) (prefixes : DogecoinAddressPrefixes)

theorem metered_readAuxPow : Metered given (readAuxPow digests) (given + 1) := by
  refine metered_bind metered_skipTransaction (fun _ => ?_)
  refine metered_bind metered_skipBytes (fun _ => ?_)
  refine metered_bind metered_skipHashVector (fun _ => ?_)
  refine metered_bind metered_skipBytes (fun _ => ?_)
  refine metered_bind metered_skipHashVector (fun _ => ?_)
  refine metered_bind metered_skipBytes (fun _ => ?_)
  exact metered_bind metered_read (fun _ => metered_pure _ (by omega))

theorem metered_readBlockHeader : Metered given (readBlockHeader digests) given := by
  refine metered_bind metered_peekBytes (fun _ => ?_)
  refine metered_bind metered_readInt32LE (fun _ => ?_)
  refine metered_bind metered_readHash (fun _ => ?_)
  refine metered_bind metered_readHash (fun _ => ?_)
  refine metered_bind metered_readUint32LE (fun _ => ?_)
  refine metered_bind metered_readUint32LE (fun _ => ?_)
  exact metered_bind metered_readUint32LE (fun _ => metered_pure _ (by omega))

theorem metered_readInput : Metered given readInput (given + 1) := by
  refine metered_bind metered_readHash (fun _ => ?_)
  refine metered_bind metered_readUint32LE (fun _ => ?_)
  refine metered_bind metered_readCompactSize (fun _ => ?_)
  refine metered_bind metered_read (fun _ => ?_)
  refine metered_bind metered_readUint32LE (fun _ => ?_)
  split
  · exact metered_pure _ (by omega)
  · exact metered_pure _ (by omega)

theorem metered_readInputs : Metered given readInputs (given + 1) :=
  metered_bind metered_readCompactSize
    (fun count => metered_times (fun _ => metered_readInput) count)

theorem metered_readOutput (index : Nat) :
    Metered given (readOutput digests prefixes index) (given + 1) := by
  refine metered_bind metered_readInt64LE (fun _ => ?_)
  refine metered_bind metered_readCompactSize (fun size => ?_)
  refine metered_bind_of metered_read (fun _ _ _ => read_length) (fun script hlen => ?_)
  have hscript := classifyIterations_le script
  exact metered_bind (metered_mono metered_iterate (by omega) (Nat.le_refl (given + 1)))
    (fun _ => metered_pure _ (Nat.le_refl _))

theorem metered_readOutputs : Metered given (readOutputs digests prefixes) (given + 1) :=
  metered_bind metered_readCompactSize
    (fun count => metered_times (metered_readOutput digests prefixes) count)

theorem metered_readTransaction :
    Metered given (readTransaction digests prefixes) (given + 1) := by
  refine metered_bind metered_offset (fun _ => ?_)
  refine metered_bind metered_readInt32LE (fun _ => ?_)
  refine metered_bind metered_readInputs (fun _ => ?_)
  refine metered_bind (metered_readOutputs digests prefixes) (fun _ => ?_)
  refine metered_bind metered_readUint32LE (fun _ => ?_)
  refine metered_bind metered_offset (fun _ => ?_)
  exact metered_bind metered_slice (fun _ => metered_pure _ (by omega))

theorem metered_readBlockTransaction (height index : Nat) :
    Metered given (readBlockTransaction digests prefixes height index) (given + 1) :=
  metered_bind metered_offset
    (fun _ => metered_mapError (metered_readTransaction digests prefixes))

theorem tiled_readBlockAuxPow (header : BlockHeaderFields) :
    Tiled given (readBlockAuxPow digests header) given := by
  unfold readBlockAuxPow
  split
  · exact tiled_bind (tiled_spanned (metered_readAuxPow digests))
      (fun _ => tiled_pure _ (Nat.le_succ _))
  · exact tiled_pure _ (Nat.le_refl _)

theorem tiled_readBlock (height : Nat) :
    Tiled 0 (readBlock digests prefixes height) 0 := by
  refine tiled_bind (tiled_spanned (metered_readBlockHeader digests)) (fun header => ?_)
  refine tiled_bind (tiled_readBlockAuxPow digests header) (fun _ => ?_)
  refine tiled_bind (tiled_spanned metered_readCompactSize) (fun txCount => ?_)
  refine tiled_bind (tiled_repeatFrom (fun index => tiled_spanned
    (metered_readBlockTransaction digests prefixes height index)) 0 txCount) (fun _ => ?_)
  exact tiled_bind (tiled_still metered_assertConsumed assertConsumed_offset)
    (fun _ => tiled_pure _ (by omega))

theorem consumes_read {n : Nat} : Consumes (ByteReader.read n) n := by
  have h := consumes_bind (@consumes_peek UInt8 String n ByteReader.readPastEnd) (fun value =>
    consumes_bind (@consumes_skip UInt8 String n ByteReader.readPastEnd)
      (fun _ => @consumes_pure UInt8 String _ value))
  rwa [Nat.zero_add] at h

theorem consumes_readUint32LE : Consumes ByteReader.readUint32LE 4 :=
  consumes_bind consumes_read (fun _ => consumes_pure)

theorem consumes_readHash : Consumes ByteReader.readHash 32 :=
  consumes_bind consumes_read (fun _ => consumes_pure)

theorem consumes_readBlockHeader : Consumes (readBlockHeader digests) 80 :=
  consumes_bind consumes_peek (fun _ =>
    consumes_bind (consumes_bind consumes_readUint32LE (fun _ => consumes_pure)) (fun _ =>
    consumes_bind consumes_readHash (fun _ => consumes_bind consumes_readHash (fun _ =>
    consumes_bind consumes_readUint32LE (fun _ => consumes_bind consumes_readUint32LE (fun _ =>
    consumes_bind consumes_readUint32LE (fun _ => consumes_pure)))))))

theorem readTransaction_size {c d : Cursor UInt8} {tx : DecodedDogecoinTransaction}
    (hc : Sound c) (h : readTransaction digests prefixes c = (.ok tx,d)) :
    tx.size = d.offset - c.offset := by
  obtain ⟨hw,-⟩ := metered_ok (@metered_readTransaction 0 digests prefixes) hc h
  obtain ⟨start,c₀,hstart,h⟩ := bind_ok_iff.mp h
  cases hstart
  obtain ⟨version,c₁,-,h⟩ := bind_ok_iff.mp h
  obtain ⟨vin,c₂,-,h⟩ := bind_ok_iff.mp h
  obtain ⟨vout,c₃,-,h⟩ := bind_ok_iff.mp h
  obtain ⟨locktime,c₄,-,h⟩ := bind_ok_iff.mp h
  obtain ⟨stop,c₅,hstop,h⟩ := bind_ok_iff.mp h
  cases hstop
  obtain ⟨raw,c₆,hslice,h⟩ := bind_ok_iff.mp h
  cases hslice
  cases h
  have hend := hw.sound.offset
  have hmoved := hw.offset
  simp only at hend hmoved ⊢
  rw [List.length_take,List.length_drop]
  omega

theorem readBlockTransaction_size (height index : Nat) (c : Cursor UInt8)
    (tx : DecodedDogecoinTransaction) (d : Cursor UInt8) (hc : Sound c)
    (h : readBlockTransaction digests prefixes height index c = (.ok tx,d)) :
    tx.size = d.offset - c.offset := by
  obtain ⟨offset,c₀,hoffset,h⟩ := bind_ok_iff.mp h
  cases hoffset
  unfold mapError at h
  cases hr : readTransaction digests prefixes c with
  | mk result d' =>
    rw [hr] at h
    cases result with
    | ok tx' =>
      cases h
      exact readTransaction_size digests prefixes hc hr
    | error x => cases h

/-- The spans marked for one block: header, AuxPoW section, count, transactions. -/
def BlockLayout (auxpow : Option DecodedAuxPow) (tx : List DecodedDogecoinTransaction)
    (spans : List (Nat × Nat)) : Prop :=
  ∃ header skipped count transactions, spans = header::skipped ++ count::transactions ∧
    header.2 - header.1 = 80 ∧ skipped.length = (if auxpow.isSome then 1 else 0) ∧
    transactions.map (fun span => span.2 - span.1) = tx.map (·.size)

theorem marks_readBlockHeader : Marks (spanned (readBlockHeader digests)) (fun header new =>
    ∃ span, new = [span] ∧ span.2 - span.1 = 80 ∧ header.auxpow = none) := by
  have hR (c : Cursor UInt8) (header : BlockHeaderFields) (d : Cursor UInt8) (_ : Sound c)
      (h : readBlockHeader digests c = (.ok header,d)) :
      d.offset - c.offset = 80 ∧ header.auxpow = none := by
    have hmoved := consumes_readBlockHeader digests c header d h
    refine ⟨by omega,?_⟩
    iterate 7
      obtain ⟨_,_,-,h⟩ := bind_ok_iff.mp h
    cases h
    rfl
  exact marks_spanned (fun header n => n = 80 ∧ header.auxpow = none)
    (@metered_readBlockHeader 0 digests) hR

theorem marks_readBlockAuxPow (header : BlockHeaderFields) (h : header.auxpow = none) :
    Marks (readBlockAuxPow digests header)
      (fun header new => new.length = (if header.auxpow.isSome then 1 else 0)) := by
  unfold readBlockAuxPow
  split
  · refine marks_bind (marks_spanned (fun _ _ => True) (@metered_readAuxPow 0 digests)
      (fun _ _ _ _ _ => trivial)) (fun auxpow new hnew => ?_)
    obtain ⟨span,rfl,-⟩ := hnew
    exact marks_pure rfl
  · exact marks_pure (by rw [h]; rfl)

theorem marks_readBlock (height : Nat) : Marks (readBlock digests prefixes height)
    (fun result spans => BlockLayout result.1.auxpow result.2 spans) := by
  refine marks_bind (marks_readBlockHeader digests) (fun header new hnew => ?_)
  obtain ⟨first,rfl,hfirst,hnone⟩ := hnew
  refine marks_bind (marks_readBlockAuxPow digests header hnone) (fun header skipped hsection => ?_)
  refine marks_bind (marks_spanned (fun _ _ => True) (@metered_readCompactSize 0)
    (fun _ _ _ _ _ => trivial)) (fun txCount new hnew => ?_)
  obtain ⟨count,rfl,-⟩ := hnew
  have hbody (index : Nat) := marks_spanned (fun tx n => tx.size = n)
    (@metered_readBlockTransaction 0 digests prefixes height index)
    (readBlockTransaction_size digests prefixes height index)
  refine marks_bind (marks_repeatFrom hbody 0 txCount) (fun tx transactions hall => ?_)
  refine marks_bind (marks_metered (@metered_assertConsumed 0)) (fun _ none hempty => ?_)
  refine marks_pure ?_
  rw [hempty]
  refine ⟨first,skipped,count,transactions,by simp,hfirst,hsection,?_⟩
  have hsizes := List.forall₂_map_left_iff.mpr hall
  rw [List.forall₂_eq_eq_eq] at hsizes
  exact hsizes.symm

theorem readBlock_consumed {height : Nat} {c d : Cursor UInt8}
    {result : BlockHeaderFields × List DecodedDogecoinTransaction}
    (h : readBlock digests prefixes height c = (.ok result,d)) : d.offset = d.items.length := by
  iterate 4
    obtain ⟨_,_,-,h⟩ := bind_ok_iff.mp h
  obtain ⟨_,last,hlast,h⟩ := bind_ok_iff.mp h
  cases h
  rw [assertConsumed_run] at hlast
  split at hlast
  · cases hlast
    assumption
  · cases hlast

/-- The spans of an accepted block follow each other from the first byte to the last. -/
structure AcceptedSpans (bytes : List UInt8) (block : DecodedDogecoinBlock)
    (spans : List (Nat × Nat)) : Prop where
  tiles : Tiles 0 spans bytes.length
  layout : BlockLayout block.auxpow block.tx spans
  size : block.size = (spans.map fun span => span.2 - span.1).sum

end Readers

end OnlyDoge
