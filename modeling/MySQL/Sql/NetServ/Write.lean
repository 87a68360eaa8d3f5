import MySQL.Library.Framing
import MySQL.Sql.NetServ.Net

/-! What is written is sent or in the buffer, in order. -/
namespace MySQL.NetServ

open List Library Framing Nat

def header (length nr : Nat) : Bytes := int3store length ++ [UInt8.ofNat nr]

theorem length_header (length nr : Nat) : (header length nr).length = netHeaderSize := by
  simp [header, int3store, netHeaderSize]

theorem header_ne_nil (length nr : Nat) : header length nr ≠ [] := by
  simp [header]

/-- A compressed packet: the two lengths, the number and the block. -/
def frame (zlib : Zlib) (nr : Nat) (block : Bytes) : Bytes :=
  header (myCompress zlib block).1.length nr ++ int3store (myCompress zlib block).2 ++
    (myCompress zlib block).1

/-- Compressed packets with ascending numbers. -/
def frames (zlib : Zlib) (nr : Nat) : List Bytes → Bytes
  | [] => []
  | block :: blocks => frame zlib nr block ++ frames zlib (nr + 1) blocks

theorem frames_append (zlib : Zlib) (nr : Nat) (front back : List Bytes) :
    frames zlib nr (front ++ back) = frames zlib nr front ++ frames zlib (nr + front.length) back := by
  induction front generalizing nr with
  | nil => rfl
  | cons block front ih =>
    rw [cons_append, frames, frames, ih, append_assoc, length_cons, add_assoc, add_comm 1]

/-- What was sent for these blocks, with and without compression. -/
structure Carries (zlib : Zlib) (compress : Bool) (nr : Nat) (out : Bytes) (blocks : List Bytes)
    (nr' : Nat) : Prop where
  out_eq : out = if compress then frames zlib nr blocks else blocks.flatten
  nr_eq : nr' = if compress then nr + blocks.length else nr
  blocks_ok : compress = true → ∀ block ∈ blocks, block ≠ [] ∧ block.length ≤ maxPacketLength

namespace Carries
variable {zlib : Zlib} {compress : Bool} {nr nr' nr'' : Nat} {out out' : Bytes}
  {blocks blocks' : List Bytes}

theorem none (zlib : Zlib) (compress : Bool) (nr : Nat) : Carries zlib compress nr [] [] nr := by
  refine ⟨?_, ?_, by simp⟩
  · cases compress <;> rfl
  · cases compress <;> rfl

theorem append (h : Carries zlib compress nr out blocks nr')
    (h' : Carries zlib compress nr' out' blocks' nr'') :
    Carries zlib compress nr (out ++ out') (blocks ++ blocks') nr'' := by
  obtain ⟨rfl, rfl, hBlocks⟩ := h
  obtain ⟨rfl, rfl, hBlocks'⟩ := h'
  cases compress with
  | true =>
    refine ⟨by simp [frames_append], by simp [add_assoc], fun hTrue block hMem => ?_⟩
    rcases mem_append.mp hMem with hFront | hBack
    · exact hBlocks hTrue block hFront
    · exact hBlocks' hTrue block hBack
  | false => exact ⟨by simp, rfl, by simp⟩

end Carries

/-- Where the buffer is full. -/
def Net.limit (net : Net) : Nat :=
  if net.compress ∧ maxPacketLength < net.maxPacket then maxPacketLength else net.maxPacket

theorem Net.leftLength_eq (net : Net) : net.leftLength = net.limit - net.writePos := by
  rw [Net.leftLength, Net.limit]
  split <;> rfl

theorem Net.limit_le (net : Net) : net.limit ≤ net.maxPacket := by
  rw [Net.limit]
  split <;> omega

theorem Net.limit_le_of_compress {net : Net} (h : net.compress = true) :
    net.limit ≤ maxPacketLength := by
  rw [Net.limit]
  split <;> simp_all

/-- What is in the buffer and was not sent. -/
def Writer.pending (w : Writer) : Bytes := load w.net.buff 0 w.net.writePos

/-- The buffer is as large as `max_packet` says, and not filled beyond its limit. -/
structure Writer.Ok (w : Writer) : Prop where
  size : w.net.maxPacket ≤ w.net.size
  pos : w.net.writePos ≤ w.net.limit

/-- `w'` is `w` after `bytes` were written: they are behind what was pending, and the
first part of both has been sent, in blocks that fill the buffer or are parts of `bytes`. -/
structure Wrote (zlib : Zlib) (w w' : Writer) (bytes : Bytes) : Prop where
  ok : w'.Ok
  size : w'.net.size = w.net.size
  maxPacket : w'.net.maxPacket = w.net.maxPacket
  compress : w'.net.compress = w.net.compress
  sent : ∃ out blocks, w'.sent = w.sent ++ out ∧
    Carries zlib w.net.compress w.net.compressPktNr out blocks w'.net.compressPktNr ∧
    w.pending ++ bytes = blocks.flatten ++ w'.pending ∧
    ∀ block ∈ blocks, block.length ≤ max w.net.limit bytes.length

section
variable {zlib : Zlib} {w w' w'' : Writer} {bytes bytes' packet : Bytes}

theorem Wrote.limit_eq (h : Wrote zlib w w' bytes) : w'.net.limit = w.net.limit := by
  rw [Net.limit, Net.limit, h.compress, h.maxPacket]

/-- What is written in two steps is written. -/
theorem Wrote.trans (h : Wrote zlib w w' bytes) (h' : Wrote zlib w' w'' bytes') :
    Wrote zlib w w'' (bytes ++ bytes') := by
  obtain ⟨out, blocks, hSent, hCarries, hBytes, hLargest⟩ := h.sent
  obtain ⟨out', blocks', hSent', hCarries', hBytes', hLargest'⟩ := h'.sent
  rw [h.compress] at hCarries'
  rw [h.limit_eq] at hLargest'
  refine ⟨h'.ok, h'.size.trans h.size, h'.maxPacket.trans h.maxPacket, h'.compress.trans h.compress,
    out ++ out', blocks ++ blocks', by rw [hSent', hSent, append_assoc],
    hCarries.append hCarries', ?_, fun block hMem => ?_⟩
  · rw [← append_assoc, hBytes, append_assoc, hBytes', flatten_append, append_assoc]
  · rw [length_append]
    rcases mem_append.mp hMem with hFront | hBack
    · exact (hLargest block hFront).trans (max_le_max_left _ (Nat.le_add_right ..))
    · exact (hLargest' block hBack).trans (max_le_max_left _ (Nat.le_add_left ..))

theorem Wrote.refl (h : w.Ok) : Wrote zlib w w [] :=
  ⟨h, rfl, rfl, rfl, [], [], by simp, .none .., by simp, by simp⟩

theorem Net.put_ok {net : Net} {pos : Nat} (h : pos + packet.length ≤ net.size) :
    net.put pos packet = .ok { net with buff := store net.buff pos packet } :=
  if_pos (.inr h)

theorem netRealWrite_eq (w : Writer) (block : Bytes) : netRealWrite zlib w block =
      { net := { w.net with
          compressPktNr := if w.net.compress then w.net.compressPktNr + 1 else w.net.compressPktNr }
        sent := w.sent ++ if w.net.compress then frame zlib w.net.compressPktNr block else block } := by
  rw [netRealWrite]
  cases w.net.compress <;> simp [frame, header]

/-- A block is sent. -/
theorem carries_netRealWrite (w : Writer) {block : Bytes}
    (h : w.net.compress = true → block ≠ [] ∧ block.length ≤ maxPacketLength) :
    Carries zlib w.net.compress w.net.compressPktNr
      (if w.net.compress then frame zlib w.net.compressPktNr block else block) [block]
      (netRealWrite zlib w block).net.compressPktNr := by
  rw [netRealWrite_eq]
  refine ⟨?_, ?_, fun hCompress b hb => ?_⟩
  · cases w.net.compress <;> simp [frames]
  · cases w.net.compress <;> rfl
  · rw [mem_singleton.mp hb]
    exact h hCompress

def Writer.appended (w : Writer) (packet : Bytes) : Writer :=
  { w with net := { w.net with
      buff := store w.net.buff w.net.writePos packet
      writePos := w.net.writePos + packet.length } }

theorem Writer.pending_appended (w : Writer) (packet : Bytes) :
    (w.appended packet).pending = w.pending ++ packet := by
  have hLoad : load (store w.net.buff (0 + w.net.writePos) packet) 0 (w.net.writePos + packet.length) =
      load w.net.buff 0 w.net.writePos ++ packet := load_store_before
  rwa [zero_add] at hLoad

/-- What fits into the buffer waits there. -/
theorem appendBuff_spec (h : w.Ok) (hRoom : w.net.writePos + packet.length ≤ w.net.limit) :
    ∃ w', appendBuff w packet = .ok w' ∧ Wrote zlib w w' packet ∧ w'.net.pktNr = w.net.pktNr := by
  have hSize : w.net.writePos + packet.length ≤ w.net.size :=
    le_trans hRoom (le_trans w.net.limit_le h.size)
  refine ⟨w.appended packet, by rw [appendBuff, Net.put_ok hSize]; rfl,
    ⟨⟨h.size, hRoom⟩, rfl, rfl, rfl, [], [], (append_nil _).symm, .none .., ?_, by simp⟩, rfl⟩
  rw [Writer.pending_appended]
  rfl

def Writer.emptied (w : Writer) : Writer := { w with net := { w.net with writePos := 0 } }

theorem Writer.emptied_eq (h : w.net.writePos = 0) : w.emptied = w := by
  rw [Writer.emptied, ← h]

section
variable (zlib : Zlib) (h : w.Ok)
include h

/-- Send a block that is all that is pending and more. -/
theorem wrote_netRealWrite {block : Bytes} (hBlock : w.pending ++ bytes = block)
    (hLength : w.net.compress = true → block ≠ [] ∧ block.length ≤ maxPacketLength)
    (hLargest : block.length ≤ max w.net.limit bytes.length) (buff : Nat → UInt8) :
    Wrote zlib w (netRealWrite zlib { w with net := { w.net with buff } } block).emptied bytes ∧
      (netRealWrite zlib { w with net := { w.net with buff } } block).net.pktNr = w.net.pktNr := by
  have hCarries : Carries zlib _ _ _ _ _ :=
    carries_netRealWrite { w with net := { w.net with buff } } hLength
  rw [netRealWrite_eq] at hCarries ⊢
  refine ⟨⟨⟨h.size, zero_le _⟩, rfl, rfl, rfl, _, _, rfl, hCarries, ?_, fun b hb => ?_⟩, rfl⟩
  · rw [hBlock, flatten_singleton]
    exact (append_nil _).symm
  · rw [mem_singleton.mp hb]
    exact hLargest

/-- Fill up the buffer and send it; nothing is pending then. -/
theorem fillBuff_spec (hLeft : w.net.leftLength < packet.length) :
    ∃ w' front back, fillBuff zlib w packet = .ok (w', back) ∧ packet = front ++ back ∧
      Wrote zlib w w' front ∧ w'.net.writePos = 0 ∧ w'.net.pktNr = w.net.pktNr := by
  by_cases hEmpty : w.net.writePos = 0
  · exact ⟨w, [], packet, by rw [fillBuff, if_neg (by simpa using hEmpty)]; rfl, rfl, .refl h, hEmpty, rfl⟩
  · have hPos := h.pos
    rw [Net.leftLength_eq] at hLeft
    obtain ⟨front, hFront⟩ : ∃ front, packet.take w.net.leftLength = front := ⟨_, rfl⟩
    have hTake : front.length = w.net.limit - w.net.writePos := by
      rw [← hFront, length_take, Net.leftLength_eq]
      omega
    have hFits : w.net.writePos + front.length = w.net.limit := by
      omega
    have hSize : w.net.writePos + front.length ≤ w.net.size := by
      rw [hFits]
      exact le_trans w.net.limit_le h.size
    have hBlock : w.pending ++ front =
        load (store w.net.buff w.net.writePos front) 0 (w.net.writePos + w.net.leftLength) := by
      rw [← Writer.pending_appended, Writer.pending, Writer.appended, hTake, Net.leftLength_eq]
    have hPending : w.pending.length = w.net.writePos := by simp [Writer.pending]
    have hWhole : (w.pending ++ front).length = w.net.limit := by rw [length_append, hPending, hFits]
    have hLength : w.net.compress = true →
        w.pending ++ front ≠ [] ∧ (w.pending ++ front).length ≤ maxPacketLength := by
      intro hCompress
      refine ⟨fun hNil => hEmpty ?_, ?_⟩
      · rw [← hPending, (append_eq_nil_iff.mp hNil).1, length_nil]
      · rw [hWhole]
        exact Net.limit_le_of_compress hCompress
    obtain ⟨hWrote, hNr⟩ := wrote_netRealWrite zlib h rfl hLength (hWhole.trans_le (le_max_left ..))
      (store w.net.buff w.net.writePos front)
    rw [hBlock] at hWrote hNr
    refine ⟨_, front, packet.drop w.net.leftLength, ?_, ?_, hWrote, rfl, hNr⟩
    · rw [fillBuff, if_pos hEmpty]
      simp only [hFront, Net.put_ok hSize]
      rfl
    · rw [← hFront, take_append_drop]

/-- Nothing is pending before a block that is sent at once. -/
theorem wrote_packet (hEmpty : w.net.writePos = 0)
    (hLength : w.net.compress = true → packet ≠ [] ∧ packet.length ≤ maxPacketLength) :
    Wrote zlib w (netRealWrite zlib w packet) packet ∧
      (netRealWrite zlib w packet).net.writePos = 0 ∧
      (netRealWrite zlib w packet).net.pktNr = w.net.pktNr := by
  have hNone : w.pending = [] := by rw [Writer.pending, hEmpty, load_zero]
  have hPos : (netRealWrite zlib w packet).net.writePos = 0 := by rw [netRealWrite_eq, ← hEmpty]
  obtain ⟨hWrote, hNr⟩ := wrote_netRealWrite zlib h (by rw [hNone, nil_append]) hLength (le_max_right ..) w.net.buff
  rw [Writer.emptied_eq hPos] at hWrote
  exact ⟨hWrote, hPos, hNr⟩

/-- With compression a long packet goes out in blocks of the largest size; the induction is on what is left. -/
theorem writeBlocks_spec (hEmpty : w.net.writePos = 0)
    (hCompress : w.net.compress = true) (packet : Bytes) :
    ∃ w' front back, writeBlocks zlib w packet = (w', back) ∧ packet = front ++ back ∧
      back.length ≤ maxPacketLength ∧ Wrote zlib w w' front ∧ w'.net.writePos = 0 ∧
      w'.net.pktNr = w.net.pktNr := by
  have hMax := maxPacketLength_pos
  induction hn : packet.length using Nat.strongRecOn generalizing w packet with
  | ind n ih =>
    rw [writeBlocks]
    split
    · rename_i hLong
      have hTake : (packet.take maxPacketLength).length = maxPacketLength := by
        rw [length_take]
        omega
      have hBlock : packet.take maxPacketLength ≠ [] := by
        intro hNil
        rw [hNil, length_nil] at hTake
        omega
      obtain ⟨hWrote, hPos, hNr⟩ := wrote_packet zlib h hEmpty fun _ => ⟨hBlock, le_of_eq hTake⟩
      obtain ⟨w', front, back, hRest, hSplit, hLength, hWrote', hPos', hNr'⟩ :=
        ih (packet.drop maxPacketLength).length (by rw [length_drop]; omega) hWrote.ok hPos
          (hWrote.compress.trans hCompress) _ rfl
      refine ⟨w', packet.take maxPacketLength ++ front, back, hRest, ?_, hLength, hWrote.trans hWrote',
        hPos', hNr'.trans hNr⟩
      rw [append_assoc, ← hSplit, take_append_drop]
    · exact ⟨w, [], packet, rfl, rfl, by omega, .refl h, hEmpty, rfl⟩

/-- The blocks of a packet that does not fit into the buffer. -/
theorem blocks_spec (hEmpty : w.net.writePos = 0) (packet : Bytes) :
    ∃ w' front back,
      (if w.net.compress then writeBlocks zlib w packet else (w, packet)) = (w', back) ∧
      packet = front ++ back ∧ (w'.net.compress = true → back.length ≤ maxPacketLength) ∧
      Wrote zlib w w' front ∧ w'.net.writePos = 0 ∧ w'.net.pktNr = w.net.pktNr := by
  cases hCompress : w.net.compress with
  | true =>
    obtain ⟨w', front, back, hBlocks, hSplit, hLength, hWrote⟩ :=
      writeBlocks_spec zlib h hEmpty hCompress packet
    exact ⟨w', front, back, hBlocks, hSplit, fun _ => hLength, hWrote⟩
  | false => exact ⟨w, [], packet, rfl, rfl, by simp [hCompress], .refl h, hEmpty, rfl⟩

/-- What is written goes behind what is pending. -/
theorem netWriteBuff_spec (packet : Bytes) :
    ∃ w', netWriteBuff zlib w packet = .ok w' ∧ Wrote zlib w w' packet ∧
      w'.net.pktNr = w.net.pktNr := by
  have hPos := h.pos
  by_cases hLeft : w.net.leftLength < packet.length
  · obtain ⟨w₁, front₁, rest, hFill, rfl, hWrote₁, hPos₁, hNr₁⟩ := fillBuff_spec zlib h hLeft
    obtain ⟨w₂, front₂, back, hBlocks, rfl, hLength, hWrote₂, hPos₂, hNr₂⟩ :=
      blocks_spec zlib hWrote₁.ok hPos₁ rest
    have hLast : ∃ w', netWriteBuff zlib w (front₁ ++ (front₂ ++ back)) = .ok w' ∧
        Wrote zlib w₂ w' back ∧ w'.net.pktNr = w₂.net.pktNr := by
      rw [netWriteBuff, if_pos hLeft, hFill]
      simp only [bind, Except.bind, hBlocks]
      split
      · rename_i hLong
        have hSome : back ≠ [] := by
          rintro rfl
          simp at hLong
        obtain ⟨hWrote, -, hNr⟩ := wrote_packet zlib hWrote₂.ok hPos₂ fun hCompress =>
          ⟨hSome, hLength hCompress⟩
        exact ⟨_, rfl, hWrote, hNr⟩
      · refine appendBuff_spec hWrote₂.ok ?_
        rw [Net.limit]
        split <;> simp_all
    obtain ⟨w', hOk, hWrote, hNr⟩ := hLast
    exact ⟨w', hOk, hWrote₁.trans (hWrote₂.trans hWrote), by rw [hNr, hNr₂, hNr₁]⟩
  · rw [netWriteBuff, if_neg hLeft]
    rw [Net.leftLength_eq] at hLeft
    exact appendBuff_spec h (by omega)

end

theorem Wrote.setNr (h : Wrote zlib w w' bytes) (pktNr : Nat) :
    Wrote zlib w { w' with net := { w'.net with pktNr } } bytes :=
  ⟨⟨h.ok.size, h.ok.pos⟩, h.size, h.maxPacket, h.compress, h.sent⟩

section
variable (zlib : Zlib) (h : w.Ok)
include h

/-- Nothing is pending after a flush. -/
theorem netFlush_spec :
    Wrote zlib w (netFlush zlib w) [] ∧ (netFlush zlib w).pending = [] ∧
      (w.net.compress = false → (netFlush zlib w).net.pktNr = w.net.pktNr) := by
  have hSent : Wrote zlib w (sendBuff zlib w) [] ∧ (sendBuff zlib w).net.writePos = 0 ∧
      (sendBuff zlib w).net.pktNr = w.net.pktNr := by
    rw [sendBuff]
    split
    · rename_i hSome
      have hLength : w.pending.length = w.net.writePos := by simp [Writer.pending]
      obtain ⟨hWrote, hNr⟩ := wrote_netRealWrite zlib h (append_nil _) (fun hCompress =>
        ⟨fun hNil => hSome (by rw [← hLength, hNil, length_nil]), by
          rw [hLength]
          exact le_trans h.pos (Net.limit_le_of_compress hCompress)⟩)
        (by rw [hLength]; exact h.pos.trans (le_max_left ..)) w.net.buff
      exact ⟨hWrote, rfl, hNr⟩
    · rename_i hEmpty
      exact ⟨.refl h, by simpa using hEmpty, rfl⟩
  obtain ⟨hWrote, hPos, hNr⟩ := hSent
  have hPending : (sendBuff zlib w).pending = [] := by rw [Writer.pending, hPos, load_zero]
  rw [netFlush]
  split
  · rename_i hCompress
    rw [hWrote.compress] at hCompress
    exact ⟨hWrote.setNr _, hPending, by simp [hCompress]⟩
  · exact ⟨hWrote, hPending, fun _ => hNr⟩

theorem takeNr_spec : Wrote zlib w w.takeNr.2 [] := Wrote.setNr (.refl h) _

/-- A packet with its header. -/
theorem writePacket_spec (data : Bytes) :
    ∃ w₁ w₂, netWriteBuff zlib w.takeNr.2 (int3store data.length ++ [w.takeNr.1]) = .ok w₁ ∧
      netWriteBuff zlib w₁ data = .ok w₂ ∧ Wrote zlib w w₂ (Framing.packet header w.net.pktNr data) ∧
      w₂.net.pktNr = w.net.pktNr + 1 := by
  have hTake := takeNr_spec zlib h
  obtain ⟨w₁, hFirst, hWrote₁, hNr₁⟩ := netWriteBuff_spec zlib hTake.ok
    (int3store data.length ++ [w.takeNr.1])
  obtain ⟨w₂, hSecond, hWrote₂, hNr₂⟩ := netWriteBuff_spec zlib hWrote₁.ok data
  exact ⟨w₁, w₂, hFirst, hSecond, hTake.trans (hWrote₁.trans hWrote₂), hNr₂.trans hNr₁⟩

/-- A message is written in packets. -/
theorem myNetWrite_spec (message : Bytes) :
    ∃ w', myNetWrite zlib w message = .ok w' ∧
      Wrote zlib w w' (encode header maxPacketLength w.net.pktNr message) ∧
      w'.net.pktNr = w.net.pktNr + count maxPacketLength message := by
  induction message using packet_induction maxPacketLength_pos generalizing w with
  | hLast message hShort =>
    obtain ⟨w₁, w₂, hFirst, hSecond, hWrote, hNr⟩ := writePacket_spec zlib h message
    refine ⟨w₂, ?_, by rwa [encode_of_lt _ hShort], by rw [hNr, count_of_lt hShort]⟩
    rw [myNetWrite, if_neg (by omega)]
    simp only [bind, Except.bind]
    rw [hFirst]
    exact hSecond
  | hFull message hLong ih =>
    have hTake := length_take_of_le hLong
    obtain ⟨w₁, w₂, hFirst, hSecond, hWrote, hNr⟩ :=
      writePacket_spec zlib h _
    obtain ⟨w', hRest, hWrote', hNr'⟩ := ih hWrote.ok
    refine ⟨w', ?_, ?_, ?_⟩
    · rw [hTake] at hFirst
      rw [myNetWrite, if_pos hLong]
      simp only [bind, Except.bind]
      rw [hFirst]
      simp only [hSecond, hRest]
    · rw [encode_of_le _ maxPacketLength_pos hLong, ← hNr]
      exact hWrote.trans hWrote'
    · rw [hNr', hNr, count_of_le maxPacketLength_pos hLong, add_assoc]

/-- The full packets of what is left of a command. -/
theorem writeFull_spec (rest : Bytes) :
    ∃ w' out back, writeFull zlib w rest = .ok (w', back) ∧ Wrote zlib w w' out ∧
      encode header maxPacketLength w.net.pktNr rest =
        out ++ Framing.packet header w'.net.pktNr back ∧
      w.net.pktNr + count maxPacketLength rest = w'.net.pktNr + 1 := by
  induction rest using packet_induction maxPacketLength_pos generalizing w with
  | hLast rest hShort =>
    refine ⟨w, [], rest, ?_, .refl h, by rw [encode_of_lt _ hShort]; rfl, by rw [count_of_lt hShort]⟩
    rw [writeFull, if_neg (by omega)]
    rfl
  | hFull rest hLong ih =>
    have hTake : (rest.take maxPacketLength).length = maxPacketLength := by
      rw [length_take]
      omega
    have hNumber := takeNr_spec zlib h
    obtain ⟨w₁, hFirst, hWrote₁, hNr₁⟩ := netWriteBuff_spec zlib hNumber.ok
      (int3store maxPacketLength ++ [w.takeNr.1])
    obtain ⟨w₂, hSecond, hWrote₂, hNr₂⟩ := netWriteBuff_spec zlib hWrote₁.ok []
    obtain ⟨w₃, hThird, hWrote₃, hNr₃⟩ := netWriteBuff_spec zlib hWrote₂.ok (rest.take maxPacketLength)
    have hNr : w₃.net.pktNr = w.net.pktNr + 1 := by rw [hNr₃, hNr₂, hNr₁]; rfl
    obtain ⟨w', out, back, hRest, hWrote, hEncode, hCount⟩ := ih hWrote₃.ok
    refine ⟨w', packet header w.net.pktNr (rest.take maxPacketLength) ++ out, back, ?_, ?_, ?_, ?_⟩
    · rw [writeFull, if_pos hLong]
      simp only [bind, Except.bind]
      rw [hFirst]
      simp only [hSecond, hThird, hRest]
    · have hAll := hNumber.trans (hWrote₁.trans (hWrote₂.trans (hWrote₃.trans hWrote)))
      rw [packet, hTake, append_assoc]
      exact hAll
    · rw [encode_of_le _ maxPacketLength_pos hLong, ← hNr, hEncode, append_assoc]
    · rw [count_of_le maxPacketLength_pos hLong, ← add_assoc, ← hNr, hCount]

/-- A command is written as one message, and sent. -/
theorem netWriteCommand_spec (command : UInt8) {head : Bytes}
    (hHead : head.length < maxPacketLength) (packet : Bytes) :
    ∃ w', netWriteCommand zlib w command head packet = .ok w' ∧
      Wrote zlib w w' (encode header maxPacketLength w.net.pktNr (command :: head ++ packet)) ∧
      w'.pending = [] ∧ (w.net.compress = false →
        w'.net.pktNr = w.net.pktNr + count maxPacketLength (command :: head ++ packet)) := by
  obtain ⟨message, hMessage⟩ : ∃ message, message = command :: head ++ packet := ⟨_, rfl⟩
  rw [← hMessage]
  have hNumber := takeNr_spec zlib h
  have hLength : message.length = packet.length + 1 + head.length := by
    simp only [hMessage, cons_append, length_cons, length_append]
    omega
  by_cases hLong : maxPacketLength ≤ packet.length + 1 + head.length
  · obtain ⟨len, hLen⟩ : ∃ len, len = maxPacketLength - 1 - head.length := ⟨_, rfl⟩
    have hSplit : message = (command :: head ++ packet.take len) ++ packet.drop len := by
      rw [hMessage, append_assoc, take_append_drop]
    have hLe : maxPacketLength ≤ message.length := by rwa [hLength]
    have hFirstLength : (command :: head ++ packet.take len).length = maxPacketLength := by
      simp only [cons_append, length_cons, length_append, length_take]
      omega
    have hTake : message.take maxPacketLength = command :: head ++ packet.take len := by
      rw [hSplit, take_left' hFirstLength]
    have hDrop : message.drop maxPacketLength = packet.drop len := by
      rw [hSplit, drop_left' hFirstLength]
    obtain ⟨w₁, hFirst, hWrote₁, hNr₁⟩ := netWriteBuff_spec zlib hNumber.ok
      (int3store maxPacketLength ++ [w.takeNr.1] ++ [command])
    obtain ⟨w₂, hSecond, hWrote₂, hNr₂⟩ := netWriteBuff_spec zlib hWrote₁.ok head
    obtain ⟨w₃, hThird, hWrote₃, hNr₃⟩ := netWriteBuff_spec zlib hWrote₂.ok (packet.take len)
    have hNr : w₃.net.pktNr = w.net.pktNr + 1 := by rw [hNr₃, hNr₂, hNr₁]; rfl
    obtain ⟨w₄, out, back, hFull, hWrote₄, hEncode, hCount⟩ :=
      writeFull_spec zlib hWrote₃.ok (packet.drop len)
    obtain ⟨w₅, w₆, hFifth, hSixth, hWrote₆, hNr₆⟩ := writePacket_spec zlib hWrote₄.ok back
    obtain ⟨hFlush, hPending, hPlain⟩ := netFlush_spec zlib hWrote₆.ok
    refine ⟨netFlush zlib w₆, ?_, ?_, hPending, fun hCompress => ?_⟩
    · simp only [netWriteCommand, if_pos hLong, bind, Except.bind, ← hLen]
      rw [hFirst]
      simp only [hSecond, hThird, hFull]
      rw [hFifth]
      simp only [hSixth]
      rfl
    · have hAll := hNumber.trans (hWrote₁.trans (hWrote₂.trans (hWrote₃.trans (hWrote₄.trans
        (hWrote₆.trans hFlush)))))
      have hPacket : Framing.packet header w.net.pktNr (command :: head ++ packet.take len) =
          int3store maxPacketLength ++ [w.takeNr.1] ++ [command] ++ head ++ packet.take len := by
        rw [Framing.packet, hFirstLength, header, Writer.takeNr]
        simp only [append_assoc, cons_append, nil_append]
      have hBytes : encode header maxPacketLength w.net.pktNr message =
          int3store maxPacketLength ++ [w.takeNr.1] ++ [command] ++ (head ++ (packet.take len ++
            (out ++ (Framing.packet header w₄.net.pktNr back ++ [])))) := by
        rw [encode_of_le _ maxPacketLength_pos hLe, hTake, hDrop, ← hNr, hEncode, hPacket,
          append_nil]
        simp only [append_assoc]
      rw [hBytes]
      exact hAll
    · have hSame : w₆.net.compress = false := by
        rw [hWrote₆.compress, hWrote₄.compress, hWrote₃.compress, hWrote₂.compress, hWrote₁.compress,
          hNumber.compress, hCompress]
      rw [hPlain hSame, hNr₆, count_of_le maxPacketLength_pos hLe, hDrop, ← hCount, hNr,
        add_assoc]
  · have hShort : message.length < maxPacketLength := by
      rw [hLength]
      omega
    obtain ⟨w₁, hFirst, hWrote₁, hNr₁⟩ := netWriteBuff_spec zlib hNumber.ok
      (int3store _ ++ [w.takeNr.1] ++ [command])
    have hMiddle : ∃ w₂, writeHeader zlib w₁ head = .ok w₂ ∧ Wrote zlib w₁ w₂ head ∧
        w₂.net.pktNr = w₁.net.pktNr := by
      rw [writeHeader]
      split
      · exact netWriteBuff_spec zlib hWrote₁.ok head
      · rename_i hNone
        obtain rfl := length_eq_zero_iff.mp (by simpa using hNone)
        exact ⟨w₁, rfl, .refl hWrote₁.ok, rfl⟩
    obtain ⟨w₂, hSecond, hWrote₂, hNr₂⟩ := hMiddle
    obtain ⟨w₃, hThird, hWrote₃, hNr₃⟩ := netWriteBuff_spec zlib hWrote₂.ok packet
    obtain ⟨hFlush, hPending, hPlain⟩ := netFlush_spec zlib hWrote₃.ok
    refine ⟨netFlush zlib w₃, ?_, ?_, hPending, fun hCompress => ?_⟩
    · simp only [netWriteCommand, if_neg hLong, bind, Except.bind]
      rw [hFirst]
      simp only [hSecond, hThird]
      rfl
    · have hAll := hNumber.trans (hWrote₁.trans (hWrote₂.trans (hWrote₃.trans hFlush)))
      rw [encode_of_lt _ hShort, Framing.packet, hLength]
      simp only [hMessage, header, append_assoc, cons_append, nil_append, append_nil] at hAll ⊢
      exact hAll
    · have hSame : w₃.net.compress = false := by
        rw [hWrote₃.compress, hWrote₂.compress, hWrote₁.compress, hNumber.compress, hCompress]
      rw [hPlain hSame, hNr₃, hNr₂, hNr₁, count_of_lt hShort]
      rfl

end

end

end MySQL.NetServ
