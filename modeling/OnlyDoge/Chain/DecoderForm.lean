import OnlyDoge.Chain.DecodedBlocks
import OnlyDoge.Node.DecoderBounds
set_option autoImplicit false

/-! Every block that the decoder returns has the form that the builder relies on. -/

namespace OnlyDoge.Snapshot
open Reader

theorem yields_readHash : Yields ByteReader.readHash IsHash := by
  refine yields_bind (P := fun bytes => bytes.length = 32)
    (fun c bytes d h => read_length h) fun bytes hlength => yields_pure ?_
  exact ⟨bytes.reverse,by rw [List.length_reverse,hlength],rfl⟩

section Form
variable {digests : Digests} {prefixes : DogecoinAddressPrefixes}

theorem yields_readInput : Yields readInput DecodedInput := by
  refine yields_bind yields_readHash fun txid htxid => ?_
  refine yields_skip fun vout => yields_skip fun size => yields_skip fun script => ?_
  refine yields_skip fun sequence => ?_
  split
  · exact yields_pure (.coinbase script sequence)
  · exact yields_pure (.output txid vout script sequence htxid)

theorem yields_readOutput (index : Nat) :
    Yields (readOutput digests prefixes index) (DecodedOutput index) :=
  yields_skip fun value => yields_skip fun _ => yields_skip fun _ => yields_skip fun _ =>
    yields_pure ⟨rfl,value,rfl⟩

section Digest
variable (hsha256 : ∀ bytes, (digests.sha256 bytes).length = 32)
include hsha256

theorem isHash_sha256d (bytes : List UInt8) : IsHash (digests.sha256d bytes) :=
  ⟨(digests.sha256dBytes bytes).reverse,by rw [List.length_reverse]; exact hsha256 _,rfl⟩

theorem yields_readTransaction :
    Yields (readTransaction digests prefixes) DecodedTransaction := by
  refine yields_skip fun _ => yields_skip fun _ => ?_
  refine yields_bind (yields_skip fun count => yields_times (fun _ => yields_readInput) count)
    fun vin hvin => ?_
  refine yields_bind (yields_skip fun count => yields_repeatFrom yields_readOutput 0 count)
    fun vout hvout => ?_
  refine yields_skip fun _ => yields_skip fun _ => yields_skip fun raw => yields_pure ?_
  exact ⟨isHash_sha256d hsha256 raw,hvin,hvout⟩

/-- What the builder needs of a header. -/
def HeaderForm (header : BlockHeaderFields) : Prop :=
  IsHash header.hash ∧ ∀ hash ∈ header.previousblockhash, IsHash hash

theorem yields_readBlockHeader : Yields (readBlockHeader digests) HeaderForm := by
  refine yields_skip fun headerBytes => yields_skip fun _ => ?_
  refine yields_bind yields_readHash fun previousHash hprevious => ?_
  refine yields_skip fun _ => yields_skip fun _ => yields_skip fun _ => yields_skip fun _ => ?_
  refine yields_pure ⟨isHash_sha256d hsha256 headerBytes,?_⟩
  intro hash hhash
  split at hhash
  · cases hhash
    exact hprevious
  · cases hhash

theorem yields_readBlock (height : Nat) : Yields (readBlock digests prefixes height)
    (fun block => HeaderForm block.1 ∧ ∀ tx ∈ block.2, DecodedTransaction tx) := by
  refine yields_bind (yields_spanned (yields_readBlockHeader hsha256)) fun header hheader => ?_
  refine yields_bind (P := HeaderForm) ?_ fun header hheader => ?_
  · unfold readBlockAuxPow
    split
    · exact yields_skip fun _ => yields_pure hheader
    · exact yields_pure hheader
  · refine yields_skip fun txCount => yields_bind (yields_times (fun index => yields_spanned
      (yields_skip fun _ => yields_mapError (yields_readTransaction hsha256))) txCount)
      fun tx htx => ?_
    exact yields_skip fun _ => yields_pure ⟨hheader,htx⟩

theorem decodedBlock_of_decode {hex : String} {height : Nat} {block : DecodedDogecoinBlock}
    (h : decodeDogecoinRawBlock digests prefixes hex height = .ok block) : DecodedBlock block := by
  unfold decodeDogecoinRawBlock decodeBytes at h
  cases hbytes : hexToBytes hex with
  | error message =>
    rw [hbytes] at h
    cases h
  | ok bytes =>
    simp only [hbytes] at h
    cases hread : readBlock digests prefixes height (Reader.start bytes) with
    | mk result reader =>
      rw [hread] at h
      cases result with
      | error message => cases h
      | ok parts =>
        obtain ⟨header,tx⟩ := parts
        cases h
        obtain ⟨hheader,htx⟩ := yields_readBlock hsha256 height _ _ _ hread
        exact ⟨hheader.1,hheader.2,htx⟩

end Digest

end Form

end OnlyDoge.Snapshot
