import MySQL.Sql.NetServ.Plain

/-! `my_net_read` with compression: packets are taken out of compressed ones. -/
namespace MySQL.NetServ

open List Library Framing Nat

/-- The message so far is `done`, behind the place of its first header, and `unread` is the
rest of the buffer. -/
structure Scanning (net : Net) (scan : Scan) (done unread : Bytes) : Prop where
  roomy : net.Roomy
  compress : net.compress = true
  bound : scan.bufLength ≤ net.maxPacket
  start_le : scan.startOfPacket ≤ scan.bufLength
  unread_eq : load net.buff scan.startOfPacket (scan.bufLength - scan.startOfPacket) = unread
  position : scan.multiBytePacket = 0 ∧ scan.startOfPacket = scan.firstPacketOffset ∧ done = [] ∨
    scan.multiBytePacket = netHeaderSize ∧
      scan.startOfPacket = scan.firstPacketOffset + netHeaderSize + done.length ∧
      load net.buff (scan.firstPacketOffset + netHeaderSize) done.length = done

def Net.SameBut (net net' : Net) : Prop := ∃ buff, net' = { net with buff }

namespace Scanning
variable {net : Net} {scan : Scan} {done unread : Bytes}

section
variable (h : Scanning net scan done unread)
include h

theorem length_unread : unread.length = scan.bufLength - scan.startOfPacket := by
  rw [← h.unread_eq, length_load]

theorem first_le : scan.firstPacketOffset ≤ scan.startOfPacket := by
  rcases h.position with ⟨-, hStart, -⟩ | ⟨-, hStart, -⟩ <;> omega

/-- The length of what is in the buffer once it is moved down. -/
theorem length_le :
    scan.bufLength - scan.firstPacketOffset ≤ netHeaderSize + done.length + unread.length := by
  have hStart := h.start_le
  rw [h.length_unread]
  rcases h.position with ⟨-, hFirst, -⟩ | ⟨-, hFirst, -⟩ <;> omega

theorem moveDown : ∃ net' scan', moveDown net scan = .ok (net', scan') ∧ net.SameBut net' ∧
      Scanning net' scan' done unread ∧ scan'.firstPacketOffset = 0 ∧
      scan'.bufLength = scan.bufLength - scan.firstPacketOffset ∧
      scan'.multiBytePacket = scan.multiBytePacket := by
  obtain ⟨buf, start, first, multi⟩ := scan
  have hFirst := h.first_le
  have hStart := h.start_le
  have hBound := h.bound
  have hPosition := h.position
  dsimp only at hFirst hStart hBound hPosition
  rw [NetServ.moveDown]
  split
  · have hSize : 0 + (load net.buff first (buf - first)).length ≤ net.size := by
      rw [length_load, h.roomy]
      omega
    refine ⟨{ net with buff := store net.buff 0 (load net.buff first (buf - first)) },
      ⟨buf - first, start - first, 0, multi⟩, by rw [Net.put_ok hSize]; rfl, ⟨_, rfl⟩,
      ⟨h.roomy, h.compress, by dsimp only; omega, by dsimp only; omega, ?_, ?_⟩, rfl, rfl, rfl⟩
    · have hLength : buf - first - (start - first) = buf - start := by omega
      rw [hLength, load_moved net.buff _ _ hFirst (by omega), h.unread_eq]
    · dsimp only
      rcases hPosition with ⟨hMulti, hEq, hDone⟩ | ⟨hMulti, hEq, hDone⟩
      · exact .inl ⟨hMulti, by omega, hDone⟩
      · refine .inr ⟨hMulti, by omega, ?_⟩
        have hTotal : first + netHeaderSize + done.length ≤ first + (buf - first) := by omega
        have hMoved := load_moved net.buff _ _ (le_add_right _ _) hTotal
        rw [Nat.zero_add]
        rwa [Nat.add_sub_cancel_left, hDone] at hMoved
  · rename_i hNone
    have hZero : first = 0 := by simpa using hNone
    exact ⟨net, _, rfl, ⟨net.buff, rfl⟩, h, hZero, by omega, rfl⟩

/-- A packet that is all in the buffer is added to the message. -/
theorem takePacket {data rest : Bytes} {nr : Nat}
    (hFirst : scan.multiBytePacket ≠ 0 → scan.firstPacketOffset = 0)
    (hUnread : unread = packet header nr data ++ rest) :
    ∃ net' scan', takePacket net scan data.length = .ok (net', scan') ∧ net.SameBut net' ∧
      Scanning net' { scan' with multiBytePacket := netHeaderSize } (done ++ data) rest := by
  obtain ⟨buf, start, first, multi⟩ := scan
  have hStart := h.start_le
  have hBound := h.bound
  have hLength := h.length_unread
  have hUnreadEq := h.unread_eq
  have hPosition := h.position
  dsimp only at hFirst hStart hBound hLength hUnreadEq hPosition
  rw [hUnread, length_append, packet, length_append, length_header] at hLength
  rw [hUnread, packet, show buf - start = netHeaderSize + (data.length + rest.length) by omega, load_add,
    append_assoc] at hUnreadEq
  obtain ⟨-, hBody⟩ := append_inj hUnreadEq (by rw [length_load, length_header])
  rw [NetServ.takePacket]
  dsimp only
  split_ifs with hMulti
  · obtain rfl := hFirst hMulti
    rcases hPosition with ⟨hNot, -⟩ | ⟨-, hEq, hDone⟩
    · exact absurd hNot hMulti
    · have hSize : 0 + start + (load net.buff (0 + start + netHeaderSize) (buf - start)).length ≤ net.size := by
        rw [length_load, h.roomy]
        omega
      rw [Net.put_ok hSize]
      rw [Nat.zero_add] at hDone ⊢
      have hMoved : load (store net.buff start (load net.buff (start + netHeaderSize) (buf - start))) start
          (data.length + rest.length) = data ++ rest := by
        rw [load_store_load (by omega)]
        exact hBody
      rw [load_add] at hMoved
      obtain ⟨hData, hRest⟩ := append_inj hMoved (by rw [length_load])
      refine ⟨_, _, rfl, ⟨_, rfl⟩, h.roomy, h.compress, by dsimp only; omega, by dsimp only; omega, ?_,
        .inr ⟨rfl, ?_, ?_⟩⟩
      · dsimp only
        rw [show buf - netHeaderSize - (start + data.length) = rest.length by omega]
        exact hRest
      · dsimp only
        rw [length_append]
        omega
      · dsimp only
        rw [length_append, load_add, ← hEq, Nat.zero_add, load_store_of_le (by omega), hData, hDone]
  · rcases hPosition with ⟨-, hEq, rfl⟩ | ⟨hNot, -⟩
    · rw [load_add] at hBody
      obtain ⟨hData, hRest⟩ := append_inj hBody (by rw [length_load])
      have hPlace : start + data.length + netHeaderSize = start + netHeaderSize + data.length := by omega
      refine ⟨net, _, rfl, ⟨net.buff, rfl⟩, h.roomy, h.compress, hBound, by dsimp only; omega, ?_,
        .inr ⟨rfl, ?_, ?_⟩⟩
      · dsimp only
        rw [hPlace, show buf - (start + netHeaderSize + data.length) = rest.length by omega]
        exact hRest
      · dsimp only [nil_append]
        omega
      · dsimp only [nil_append]
        rw [← hEq]
        exact hData
    · rw [not_not.mp hMulti] at hNot
      exact absurd hNot (by decide)

end

end Scanning

/-! ### Compressed packets -/

variable {block : Bytes}

/-- A compressed packet is not empty, it needs no more room than its content, and
`my_uncompress` gives that back. -/
theorem myCompress_spec (zlib : Zlib) (hBlock : block ≠ []) : (myCompress zlib block).1 ≠ [] ∧
      max (myCompress zlib block).1.length (myCompress zlib block).2 = block.length ∧
      myUncompress zlib (myCompress zlib block).1 (myCompress zlib block).2 = some block := by
  rw [myCompress]
  split
  · exact ⟨hBlock, max_zero _, rfl⟩
  · simp only
    split
    · exact ⟨hBlock, max_zero _, rfl⟩
    · rename_i hLess
      refine ⟨zlib.compress_ne_nil block, by simp only; omega, ?_⟩
      rw [myUncompress, if_pos (mt length_eq_zero_iff.mp hBlock), zlib.uncompress_compress]

theorem frame_eq (zlib : Zlib) (nr : Nat) (block rest : Bytes) :
    frame zlib nr block ++ rest = wireHeader true (myCompress zlib block).1.length nr
      (myCompress zlib block).2 ++ ((myCompress zlib block).1 ++ rest) := by
  rw [frame, wireHeader, if_pos rfl, append_assoc]

variable {net : Net} {scan : Scan} {done unread data tail : Bytes} {nr : Nat}

section
variable (h : Scanning net scan done unread)
include h

/-- The packet of the next header is not yet all in the buffer. -/
theorem Scanning.incomplete {more : Bytes}
    (hUnread : unread ++ more = packet header nr data ++ tail)
    (hData : data.length ≤ maxPacketLength) (hShort : unread.length < netHeaderSize + data.length) :
    ¬(netHeaderSize ≤ scan.bufLength - scan.startOfPacket ∧ uint3korr net.buff scan.startOfPacket = 0) ∧
      ¬(netHeaderSize ≤ scan.bufLength - scan.startOfPacket ∧
        uint3korr net.buff scan.startOfPacket + netHeaderSize ≤ scan.bufLength - scan.startOfPacket) := by
  have hLength := h.length_unread
  have hKnown (hHead : netHeaderSize ≤ scan.bufLength - scan.startOfPacket) :
      uint3korr net.buff scan.startOfPacket = data.length := by
    have hEq := h.unread_eq
    rw [show scan.bufLength - scan.startOfPacket = netHeaderSize + (unread.length - netHeaderSize) by omega,
      load_add] at hEq
    rw [← hEq, packet, append_assoc, append_assoc] at hUnread
    obtain ⟨hHeader, -⟩ := append_inj hUnread (by rw [length_load, length_header])
    exact (uint3korr_header (lt_of_le_of_lt hData maxPacketLength_lt) hHeader).1
  constructor
  · rintro ⟨hHead, hZero⟩
    rw [hKnown hHead] at hZero
    omega
  · rintro ⟨hHead, hLe⟩
    rw [hKnown hHead] at hLe
    omega

theorem Scanning.complete {rest : Bytes} (hUnread : unread = packet header nr data ++ rest)
    (hData : data.length ≤ maxPacketLength) : uint3korr net.buff scan.startOfPacket = data.length ∧
      data.length + netHeaderSize + rest.length = scan.bufLength - scan.startOfPacket := by
  have hLength := h.length_unread
  have hEq := h.unread_eq
  rw [hUnread, packet, length_append, length_append, length_header] at hLength
  rw [hUnread, packet, append_assoc, show scan.bufLength - scan.startOfPacket =
    netHeaderSize + (data.length + rest.length) by omega, load_add] at hEq
  obtain ⟨hHeader, -⟩ := append_inj hEq (by rw [length_load, length_header])
  exact ⟨(uint3korr_header (lt_of_le_of_lt hData maxPacketLength_lt) hHeader).1, by omega⟩

/-- The buffer after the content of a compressed packet was put behind what is unread. -/
theorem Scanning.append {net₁ : Net} {complen : Nat}
    (hStored : Stored { net with whereB := scan.bufLength, pktNr := nr } net₁ data complen)
    (hLength : max data.length complen = block.length) :
    Scanning { net₁ with buff := store net₁.buff scan.bufLength block }
      { scan with bufLength := scan.bufLength + block.length } done (unread ++ block) := by
  have hStart := h.start_le
  have hBefore (p n : Nat) (hLe : p + n ≤ scan.bufLength) :
      load (store net₁.buff scan.bufLength block) p n = load net.buff p n := by
    rw [load_store_of_le hLe]
    exact load_of_load hStored.before hLe
  refine ⟨hStored.roomy, hStored.compress.trans h.compress, ?_, ?_, ?_, ?_⟩
  · have hRoom := hStored.room
    rwa [hLength] at hRoom
  · exact le_trans hStart (le_add_right _ _)
  · simp only
    rw [show scan.bufLength + block.length - scan.startOfPacket =
      (scan.bufLength - scan.startOfPacket) + block.length by omega, load_add, hBefore _ _ (by omega),
      h.unread_eq, Nat.add_sub_cancel' hStart, load_store]
  · rcases h.position with hPosition | ⟨hMulti, hEq, hDone⟩
    · exact .inl hPosition
    · refine .inr ⟨hMulti, hEq, ?_⟩
      simp only
      rw [hBefore _ _ (by omega), hDone]

end

structure Net.Read (net net' : Net) (frames : Nat) : Prop where
  pktNr : net'.pktNr = net.pktNr + frames
  maxPacketSize : net'.maxPacketSize = net.maxPacketSize

variable {net' : Net}

theorem Net.SameBut.read (h : net.SameBut net') : net.Read net' 0 := by
  obtain ⟨buff, rfl⟩ := h
  exact ⟨rfl, rfl⟩

variable {m n : Nat}

theorem Net.Read.trans {net'' : Net} (h : net.Read net' m) (h' : net'.Read net'' n) :
    net.Read net'' (m + n) :=
  ⟨by rw [h'.pktNr, h.pktNr, add_assoc], h'.maxPacketSize.trans h.maxPacketSize⟩

theorem Net.Allows.mono (h : net.Allows n) (hLe : m ≤ n) : net.Allows m :=
  ⟨lt_of_le_of_lt hLe h.1, le_trans hLe h.2⟩

theorem Net.Read.allows (h : net.Read net' m) (hAllows : net.Allows n) : net'.Allows n := by
  rwa [Net.Allows, h.maxPacketSize]

/-- One more compressed packet is read. -/
theorem scanPackets_frame (zlib : Zlib) (h : Scanning net scan done unread) {more : Bytes}
    (hUnread : unread ++ more = packet header nr data ++ tail)
    (hData : data.length ≤ maxPacketLength) (hShort : unread.length < netHeaderSize + data.length)
    (hBlock : block ≠ []) (hLength : block.length ≤ maxPacketLength) {frameNr : Nat}
    (hNr : UInt8.ofNat frameNr = UInt8.ofNat net.pktNr)
    (hAllows : net.Allows (netHeaderSize + done.length + unread.length + block.length))
    (fuel : Nat) (rest : Bytes) (chunks : List Nat) :
    ∃ net' scan' chunks', scanPackets zlib (fuel + 1) net ⟨frame zlib frameNr block ++ rest, chunks⟩ scan =
        scanPackets zlib fuel net' ⟨rest, chunks'⟩ scan' ∧
      Scanning net' scan' done (unread ++ block) ∧ net.Read net' 1 ∧ scan'.firstPacketOffset = 0 ∧
      scan'.multiBytePacket = scan.multiBytePacket := by
  obtain ⟨hNotEnd, hNotAll⟩ := h.incomplete hUnread hData hShort
  obtain ⟨net₁, scan₁, hMove, hSame, hScan₁, hFirst, hBuf, hMulti⟩ := h.moveDown
  obtain ⟨hSome, hMax, hUncompress⟩ := myCompress_spec zlib hBlock
  have hWire := frame_eq zlib frameNr block rest
  obtain ⟨packed, hPacked⟩ : ∃ packed, packed = (myCompress zlib block).1 := ⟨_, rfl⟩
  obtain ⟨complen, hComplen⟩ : ∃ complen, complen = (myCompress zlib block).2 := ⟨_, rfl⟩
  rw [← hPacked, ← hComplen] at hWire hMax hUncompress
  rw [← hPacked] at hSome
  have hLe := h.length_le
  have hAllows₁ : net₁.Allows (max packed.length complen + scan₁.bufLength) :=
    hSame.read.allows (hAllows.mono (by omega))
  have hLt : max packed.length complen < 256 ^ 3 := by
    rw [hMax]
    exact lt_of_le_of_lt hLength maxPacketLength_lt
  have hSameNr : net₁.pktNr = net.pktNr := hSame.read.pktNr
  rw [← hSameNr] at hNr
  rw [← hScan₁.compress] at hWire
  obtain ⟨net₂, chunks', hRead, hStored⟩ := myRealRead_spec { net₁ with whereB := scan₁.bufLength } packed
    rest chunks hScan₁.roomy hScan₁.bound hNr (by omega) (by omega)
    (fun hPlain => absurd hPlain (by rw [hScan₁.compress]; decide)) (fun hNil => absurd hNil hSome) hAllows₁
  rw [← hWire] at hRead
  have hWhere : net₂.whereB = scan₁.bufLength := hStored.whereB
  have hLoad : load net₂.buff scan₁.bufLength packed.length = packed := hStored.data_eq
  have hRoom : scan₁.bufLength + max packed.length complen ≤ net₂.maxPacket := hStored.room
  have hSize : scan₁.bufLength + block.length ≤ net₂.size := by
    rw [hStored.roomy]
    omega
  have hPut : net₂.put scan₁.bufLength block =
      .ok { net₂ with buff := store net₂.buff scan₁.bufLength block } := Net.put_ok hSize
  refine ⟨{ net₂ with buff := store net₂.buff scan₁.bufLength block },
    { scan₁ with bufLength := scan₁.bufLength + block.length }, chunks', ?_,
    hScan₁.append hStored hMax, ⟨?_, ?_⟩, hFirst, hMulti⟩
  · rw [scanPackets]
    simp only [if_neg hNotEnd, if_neg hNotAll, hMove, bind, Except.bind, hRead, hWhere, hLoad,
      hUncompress, hPut]
  · exact hStored.pktNr.trans (by rw [← hSameNr])
  · exact hStored.maxPacketSize.trans hSame.read.maxPacketSize

/-- The lengths of compressed packets fit in three bytes, and none is above the largest frame of the
writer, for which the reader needs room behind a message. -/
def BlocksOk (largest : Nat) (blocks : List Bytes) : Prop :=
  ∀ block ∈ blocks, block ≠ [] ∧ block.length ≤ maxPacketLength ∧ block.length ≤ largest

structure Partial (scan : Scan) (done : Bytes) : Prop where
  first : scan.multiBytePacket ≠ 0 → scan.firstPacketOffset = 0
  ne_nil : scan.multiBytePacket ≠ 0 → done ≠ []
  full : maxPacketLength ∣ done.length

/-- Compressed packets are read until a whole packet is in the buffer. -/
theorem scanPackets_pull (zlib : Zlib) (hData : data.length ≤ maxPacketLength) {largest : Nat} (blocks : List Bytes) :
    ∀ (net : Net) (scan : Scan) (unread : Bytes) (frameNr : Nat) (chunks : List Nat),
      Scanning net scan done unread → Partial scan done →
      unread ++ blocks.flatten = packet header nr data ++ tail → BlocksOk largest blocks →
      UInt8.ofNat frameNr = UInt8.ofNat net.pktNr →
      net.Allows (done.length + data.length + largest + 2 * netHeaderSize) → ∀ fuel,
      ∃ net' scan' chunks' used unread' blocks',
        scanPackets zlib (fuel + blocks.length) net ⟨frames zlib frameNr blocks, chunks⟩ scan =
          scanPackets zlib (fuel + blocks'.length) net' ⟨frames zlib (frameNr + used) blocks', chunks'⟩ scan' ∧
        pull (packet header nr data).length unread blocks = (unread', blocks') ∧
        Scanning net' scan' done unread' ∧ net.Read net' used ∧ Partial scan' done := by
  induction blocks with
  | nil =>
    intro net scan unread frameNr chunks hScan hPartial hBytes hBlocks hNr hAllows fuel
    exact ⟨net, scan, chunks, 0, unread, [], rfl, rfl, hScan, ⟨rfl, rfl⟩, hPartial⟩
  | cons block blocks ih =>
    intro net scan unread frameNr chunks hScan hPartial hBytes hBlocks hNr hAllows fuel
    by_cases hEnough : (packet header nr data).length ≤ unread.length
    · exact ⟨net, scan, chunks, 0, unread, block :: blocks, rfl, pull_of_le hEnough _, hScan, ⟨rfl, rfl⟩,
        hPartial⟩
    · have hLength : (packet header nr data).length = netHeaderSize + data.length := by
        rw [packet, length_append, length_header]
      have hShort : unread.length < netHeaderSize + data.length := by omega
      obtain ⟨hSome, hLe, hLargest⟩ := hBlocks block mem_cons_self
      obtain ⟨net₁, scan₁, chunks₁, hStep, hScan₁, hRead, hZero, hMulti⟩ :=
        scanPackets_frame zlib hScan hBytes hData hShort hSome hLe hNr (hAllows.mono (by omega))
          (fuel + blocks.length) _ chunks
      obtain ⟨net', scan', chunks', used, unread', blocks', hRun, hPull, hScan', hRead', hPartial'⟩ :=
        ih net₁ scan₁ _ (frameNr + 1) chunks₁ hScan₁
          ⟨fun _ => hZero, by rw [hMulti]; exact hPartial.ne_nil, hPartial.full⟩ (by rw [append_assoc]; exact hBytes) (fun b hb => hBlocks b (mem_cons_of_mem _ hb))
          (by rw [hRead.pktNr]; exact ofNat_add_congr hNr 1) (hRead.allows hAllows) fuel
      refine ⟨net', scan', chunks', 1 + used, unread', blocks', ?_, ?_, hScan', hRead.trans hRead',
        hPartial'⟩
      · rw [length_cons, ← add_assoc, frames, hStep, hRun, add_assoc frameNr]
      · rw [pull_cons (by omega), hPull]

/-! ### One message -/

def Full (message : Bytes) : Prop := message ≠ [] ∧ maxPacketLength ∣ message.length

instance (message : Bytes) : Decidable (Full message) := inferInstanceAs (Decidable (_ ∧ _))

/-- The end of the loop: the message is in the buffer, and `rest` is behind it, or behind
the header of an empty packet. -/
structure Finished (net : Net) (scan : Scan) (message rest : Bytes) : Prop where
  roomy : net.Roomy
  compress : net.compress = true
  bound : scan.bufLength ≤ net.maxPacket
  start_le : scan.startOfPacket ≤ scan.bufLength
  rest_eq : load net.buff scan.startOfPacket (scan.bufLength - scan.startOfPacket) = rest
  message_eq : load net.buff (scan.firstPacketOffset + netHeaderSize) message.length = message
  position : if Full message then
      scan.multiBytePacket = netHeaderSize ∧
        scan.startOfPacket = scan.firstPacketOffset + netHeaderSize + message.length + netHeaderSize ∧
        net.buff (scan.firstPacketOffset + netHeaderSize + message.length) = 0
    else
      scan.multiBytePacket = 0 ∧
        scan.startOfPacket = scan.firstPacketOffset + netHeaderSize + message.length

section
variable {net : Net} {scan : Scan} {done unread rest : Bytes} {nr : Nat}

/-- An empty packet is the end of a message. -/
theorem scanPackets_empty (zlib : Zlib) (h : Scanning net scan done unread) (hPartial : Partial scan done)
    (hUnread : unread = packet header nr [] ++ rest) (fuel : Nat) (vio : Vio) :
    scanPackets zlib (fuel + 1) net vio scan =
        .ok (some { scan with startOfPacket := scan.startOfPacket + netHeaderSize }, net, vio) ∧
      Finished net { scan with startOfPacket := scan.startOfPacket + netHeaderSize } done rest := by
  obtain ⟨hZero, hSum⟩ := h.complete hUnread (zero_le _)
  have hStart := h.start_le
  have hEq := h.unread_eq
  rw [length_nil] at hZero hSum
  rw [hUnread, packet, append_nil, ← hSum, zero_add, load_add] at hEq
  obtain ⟨hHeader, hRest⟩ := append_inj hEq (by rw [length_load, length_header])
  refine ⟨?_, h.roomy, h.compress, h.bound, ?_, ?_, ?_, ?_⟩
  · rw [scanPackets]
    simp only [hZero]
    rw [if_pos ⟨by omega, trivial⟩]
    rfl
  · simp only
    omega
  · simp only
    rw [show scan.bufLength - (scan.startOfPacket + netHeaderSize) = rest.length by omega]
    exact hRest
  · rcases h.position with ⟨-, -, rfl⟩ | ⟨-, -, hDone⟩
    · rfl
    · exact hDone
  · rcases h.position with ⟨hMulti, hFirst, rfl⟩ | ⟨hMulti, hFirst, -⟩
    · rw [if_neg (fun hFull => hFull.1 rfl)]
      exact ⟨hMulti, by rw [hFirst]; rfl⟩
    · have hSome : scan.multiBytePacket ≠ 0 := by rw [hMulti]; decide
      rw [if_pos ⟨hPartial.ne_nil hSome, hPartial.full⟩]
      refine ⟨hMulti, by simp only [hFirst], ?_⟩
      simp only [← hFirst]
      exact (cons.inj hHeader).1

theorem not_full_append {data : Bytes} (hDone : maxPacketLength ∣ done.length) (hSome : data ≠ [])
    (hShort : data.length < maxPacketLength) : ¬Full (done ++ data) := by
  rintro ⟨-, hDvd⟩
  rw [length_append, Nat.dvd_add_right hDone] at hDvd
  exact Nat.not_le_of_lt hShort (le_of_dvd (length_pos_iff.mpr hSome) hDvd)

section
variable (zlib : Zlib) (h : Scanning net scan done unread) (hPartial : Partial scan done)
include zlib h hPartial

/-- A short packet is the end of a message. -/
theorem scanPackets_short {data : Bytes} (hSome : data ≠ [])
    (hShort : data.length < maxPacketLength) (hUnread : unread = packet header nr data ++ rest)
    (fuel : Nat) (vio : Vio) :
    ∃ net' scan', scanPackets zlib (fuel + 1) net vio scan = .ok (some scan', net', vio) ∧
      net.SameBut net' ∧ Finished net' scan' (done ++ data) rest := by
  obtain ⟨hLength, hSum⟩ := h.complete hUnread (le_of_lt hShort)
  obtain ⟨net', scan', hTake, hSame, hScan⟩ := h.takePacket hPartial.first hUnread
  have hPos := length_pos_iff.mpr hSome
  refine ⟨net', { scan' with multiBytePacket := 0 }, ?_, hSame, hScan.roomy, hScan.compress, hScan.bound,
    hScan.start_le, hScan.unread_eq, ?_, ?_⟩
  · rw [scanPackets]
    simp only [hLength]
    rw [if_neg (by omega), if_pos (by omega), hTake]
    simp only [bind, Except.bind]
    rw [if_pos (Nat.ne_of_lt hShort)]
    rfl
  · rcases hScan.position with ⟨hMulti, -⟩ | ⟨-, -, hDone⟩
    · exact absurd hMulti (succ_ne_zero 3)
    · exact hDone
  · rw [if_neg (not_full_append hPartial.full hSome hShort)]
    rcases hScan.position with ⟨hMulti, -⟩ | ⟨-, hStart, -⟩
    · exact absurd hMulti (succ_ne_zero 3)
    · exact ⟨rfl, hStart⟩

/-- After a full packet the message goes on. -/
theorem scanPackets_full {data : Bytes} (hFull : data.length = maxPacketLength)
    (hUnread : unread = packet header nr data ++ rest) (fuel : Nat) (vio : Vio) :
    ∃ net' scan', scanPackets zlib (fuel + 1) net vio scan = scanPackets zlib fuel net' vio scan' ∧
      net.Read net' 0 ∧ Scanning net' scan' (done ++ data) rest ∧ Partial scan' (done ++ data) := by
  have hMax := maxPacketLength_pos
  obtain ⟨hLength, hSum⟩ := h.complete hUnread (le_of_eq hFull)
  obtain ⟨net₁, scan₁, hTake, hSame, hScan₁⟩ := h.takePacket hPartial.first hUnread
  obtain ⟨net', scan', hMove, hSame', hScan', hFirst, -, -⟩ := hScan₁.moveDown
  refine ⟨net', scan', ?_, hSame.read.trans hSame'.read, hScan', fun _ => hFirst, fun _ hNil => ?_, ?_⟩
  · rw [scanPackets]
    simp only [hLength]
    rw [if_neg (by omega), if_pos (by omega), hTake]
    simp only [bind, Except.bind]
    rw [if_neg (not_not.mpr hFull), hMove]
  · rw [(append_eq_nil_iff.mp hNil).2, length_nil] at hFull
    omega
  · rw [length_append, hFull]
    exact Nat.dvd_add hPartial.full (dvd_refl _)

end

end

/-- The bytes of the next message are pulled, and the message is taken out of them. -/
theorem scanPackets_spec (zlib : Zlib) (message : Bytes) {largest : Nat} :
    ∀ (net : Net) (scan : Scan) (done unread tail : Bytes) (blocks : List Bytes) (nr frameNr : Nat)
      (chunks : List Nat) (fuel : Nat), Scanning net scan done unread → Partial scan done →
      unread ++ blocks.flatten = encode header maxPacketLength nr message ++ tail → BlocksOk largest blocks →
      UInt8.ofNat frameNr = UInt8.ofNat net.pktNr →
      net.Allows (done.length + message.length + largest + 2 * netHeaderSize) →
      count maxPacketLength message ≤ fuel →
      ∃ net' scan' chunks' used rest blocks',
        pull (encode header maxPacketLength nr message).length unread blocks =
          (encode header maxPacketLength nr message ++ rest, blocks') ∧
        scanPackets zlib (fuel + blocks.length) net ⟨frames zlib frameNr blocks, chunks⟩ scan =
          .ok (some scan', net', ⟨frames zlib (frameNr + used) blocks', chunks'⟩) ∧
        Finished net' scan' (done ++ message) rest ∧ net.Read net' used := by
  induction message using packet_induction maxPacketLength_pos with
  | hLast message hShort =>
    intro net scan done unread tail blocks nr frameNr chunks fuel hScan hPartial hBytes hBlocks hNr hAllows hFuel
    rw [encode_of_lt _ hShort] at hBytes ⊢
    rw [count_of_lt hShort] at hFuel
    obtain ⟨fuel, rfl⟩ := exists_eq_succ_of_ne_zero (ne_of_gt hFuel)
    obtain ⟨net₁, scan₁, chunks₁, used, unread', blocks', hRun, hPull, hScan₁, hRead, hPartial₁⟩ :=
      scanPackets_pull zlib (le_of_lt hShort) blocks net scan unread frameNr chunks hScan hPartial hBytes
        hBlocks hNr hAllows _
    obtain ⟨rest, hRest, -⟩ := pull_target hBytes
    rw [hPull] at hRest
    have hPulled := hPull.trans (congrArg (·, blocks') hRest)
    rw [succ_eq_add_one, hRun, add_right_comm]
    by_cases hNone : message = []
    · obtain rfl := hNone
      obtain ⟨hStep, hFinished⟩ := scanPackets_empty zlib hScan₁ hPartial₁ hRest _
        ⟨frames zlib _ blocks', chunks₁⟩
      rw [← append_nil done] at hFinished
      exact ⟨net₁, _, chunks₁, used, rest, blocks', hPulled, hStep, hFinished, hRead⟩
    · obtain ⟨net', scan', hStep, hSame, hFinished⟩ := scanPackets_short zlib hScan₁ hPartial₁ hNone hShort
        hRest _ ⟨frames zlib _ blocks', chunks₁⟩
      exact ⟨net', scan', chunks₁, used, rest, blocks', hPulled, hStep, hFinished,
        hRead.trans hSame.read⟩
  | hFull message hLong ih =>
    intro net scan done unread tail blocks nr frameNr chunks fuel hScan hPartial hBytes hBlocks hNr hAllows hFuel
    rw [encode_of_le _ maxPacketLength_pos hLong] at hBytes ⊢
    rw [count_of_le maxPacketLength_pos hLong] at hFuel
    obtain ⟨fuel, rfl⟩ := exists_eq_succ_of_ne_zero (show fuel ≠ 0 by omega)
    have hTake := length_take_of_le hLong
    have hSum := add_length_drop hLong
    rw [append_assoc] at hBytes
    obtain ⟨net₁, scan₁, chunks₁, used, unread', blocks₁, hRun, hPull, hScan₁, hRead, hPartial₁⟩ :=
      scanPackets_pull zlib (le_of_eq hTake) blocks net scan unread frameNr chunks hScan hPartial hBytes
        hBlocks hNr (hAllows.mono (by omega)) _
    obtain ⟨rest₁, hRest, hTail⟩ := pull_target hBytes
    have hSuffix := pull_suffix (packet header nr (message.take maxPacketLength)).length unread blocks
    rw [hPull] at hRest hTail hSuffix
    obtain ⟨net₂, scan₂, hStep, hRead₂, hScan₂, hPartial₂⟩ := scanPackets_full zlib hScan₁ hPartial₁ hTake
      hRest _ ⟨frames zlib _ blocks₁, chunks₁⟩
    obtain ⟨net', scan', chunks', used', rest, blocks', hPull', hRun', hFinished, hRead'⟩ :=
      ih net₂ scan₂ _ rest₁ tail blocks₁ (nr + 1) (frameNr + used) chunks₁
        fuel hScan₂ hPartial₂ hTail (fun b hb => hBlocks b (hSuffix.subset hb))
        (by rw [(hRead.trans hRead₂).pktNr]; exact ofNat_add_congr hNr used)
        ((hRead.trans hRead₂).allows (hAllows.mono (by rw [length_append]; omega))) (by omega)
    refine ⟨net', scan', chunks', used + used', rest, blocks', ?_, ?_, ?_, (hRead.trans hRead₂).trans hRead'⟩
    · exact pull_append_target (hPull.trans (congrArg (·, blocks₁) hRest)) hPull'
    · rw [succ_eq_add_one, hRun, add_right_comm, hStep, hRun', add_assoc]
    · rwa [append_assoc, take_append_drop] at hFinished

end MySQL.NetServ
