import MySQL.Sql.NetServ.Write

/-! What `my_real_read` puts into the buffer. -/
namespace MySQL.NetServ

open List Library Framing

def pktLength (length : Nat) : Nat := (length + ioSize - 1) / ioSize * ioSize

theorem le_pktLength (length : Nat) : length ≤ pktLength length := by
  rw [pktLength, ioSize]
  omega

def Net.Roomy (net : Net) : Prop := net.size = net.maxPacket + netHeaderSize + compHeaderSize

def Net.Allows (net : Net) (length : Nat) : Prop :=
  length < net.maxPacketSize ∧ length ≤ 2 ^ 32 - ioSize

theorem roomy_of_lt {net : Net} (hSize : net.size = allocated net.maxPacket)
    (h : net.maxPacket + netHeaderSize + compHeaderSize < 2 ^ 32) : net.Roomy := by
  rw [Net.Roomy, hSize, allocated, Nat.mod_eq_of_lt h]

theorem room_spec {net : Net} {length : Nat} (h : net.Roomy) (hAllows : net.Allows length) :
    ∃ size maxPacket writePos, net.room length = (false, { net with size, maxPacket, writePos }) ∧
      length ≤ maxPacket ∧ size = maxPacket + netHeaderSize + compHeaderSize ∧
      (net.maxPacket ≤ 2 ^ 32 - ioSize → maxPacket ≤ 2 ^ 32 - ioSize) := by
  rw [Net.room]
  split
  · obtain ⟨hMax, hLength⟩ := hAllows
    have hRealloc : netRealloc net length = (false, { net with
        size := allocated (pktLength length), maxPacket := pktLength length, writePos := 0 }) := by
      rw [netRealloc, if_neg (by omega)]
      rfl
    have hPkt : pktLength length ≤ 2 ^ 32 - ioSize := by
      rw [pktLength]
      rw [ioSize] at hLength ⊢
      omega
    refine ⟨_, _, _, hRealloc, le_pktLength length, ?_, fun _ => hPkt⟩
    rw [allocated, Nat.mod_eq_of_lt]
    rw [netHeaderSize, compHeaderSize]
    rw [ioSize] at hPkt
    omega
  · exact ⟨net.size, net.maxPacket, net.writePos, rfl, by omega, h, id⟩

/-- All bytes arrive, whatever the pieces. -/
theorem readBytes_spec (net : Net) (data rest : Bytes) (chunks : List Nat) (pos : Nat) {fuel : Nat}
    (hSize : pos + data.length ≤ net.size) (hFuel : data.length < fuel) :
    ∃ chunks', readBytes fuel net ⟨data ++ rest, chunks⟩ pos data.length =
      .ok ({ net with buff := store net.buff pos data }, ⟨rest, chunks'⟩) := by
  induction fuel generalizing net data chunks pos with
  | zero => omega
  | succ fuel ih =>
    rw [readBytes]
    by_cases hNone : data.length = 0
    · obtain rfl := length_eq_zero_iff.mp hNone
      rw [store_nil]
      exact ⟨chunks, rfl⟩
    · obtain ⟨n, hn⟩ : ∃ n, n = min data.length (max 1 (chunks.headD data.length)) := ⟨_, rfl⟩
      have hSome : data ++ rest ≠ [] := by
        intro hNil
        exact hNone (by rw [(append_eq_nil_iff.mp hNil).1, length_nil])
      have hTake : (data ++ rest).take n = data.take n := take_append_of_le_length (by omega)
      have hDrop : (data ++ rest).drop n = data.drop n ++ rest :=
        drop_append_of_le_length (by omega)
      have hLength : (data.take n).length = n := by
        rw [length_take]
        omega
      have hRead : vioRead ⟨data ++ rest, chunks⟩ data.length =
          .ok (data.take n, ⟨data.drop n ++ rest, chunks.tail⟩) := by
        simp only [vioRead, if_neg hSome, ← hn, hTake, hDrop]
      have hPut : net.put pos (data.take n) = .ok _ := Net.put_ok (by omega)
      obtain ⟨chunks', hRest⟩ := ih { net with buff := store net.buff pos _ }
        (data.drop n) chunks.tail (pos + n) (by rw [length_drop]; simp only; omega)
        (by rw [length_drop]; omega)
      refine ⟨chunks', ?_⟩
      rw [if_neg hNone, hRead]
      simp only [bind, Except.bind, hPut, hLength]
      rw [length_drop] at hRest
      rw [hRest]
      have hStore : store (store net.buff pos (data.take n)) (pos + n) (data.drop n) =
          store net.buff pos data := by
        have hAppend : store (store net.buff pos (data.take n)) (pos + (data.take n).length)
            (data.drop n) = store net.buff pos (data.take n ++ data.drop n) := store_append
        rwa [hLength, take_append_drop] at hAppend
      rw [hStore]

structure Stored (net net' : Net) (data : Bytes) (complen : Nat) : Prop where
  roomy : net'.Roomy
  room : net.whereB + max data.length complen ≤ net'.maxPacket
  limit : net.maxPacket ≤ 2 ^ 32 - ioSize → net'.maxPacket ≤ 2 ^ 32 - ioSize
  compress : net'.compress = net.compress
  maxPacketSize : net'.maxPacketSize = net.maxPacketSize
  pktNr : net'.pktNr = net.pktNr
  whereB : net'.whereB = net.whereB
  before : load net'.buff 0 net.whereB = load net.buff 0 net.whereB
  data_eq : load net'.buff net.whereB data.length = data

def wireHeader (compress : Bool) (length nr complen : Nat) : Bytes :=
  header length nr ++ if compress then int3store complen else []

theorem length_wireHeader (compress : Bool) (length nr complen : Nat) :
    (wireHeader compress length nr complen).length =
      if compress then netHeaderSize + compHeaderSize else netHeaderSize := by
  rw [wireHeader, length_append, length_header]
  cases compress <;> simp [int3store, compHeaderSize]

theorem uint3korr_header {buff : Nat → UInt8} {pos length nr : Nat} (hLength : length < 256 ^ 3)
    (h : load buff pos netHeaderSize = header length nr) :
    uint3korr buff pos = length ∧ buff (pos + 3) = UInt8.ofNat nr := by
  have hSplit : load buff pos (3 + 1) = int3store length ++ [UInt8.ofNat nr] := h
  rw [load_add, load_one] at hSplit
  obtain ⟨hFront, hBack⟩ := append_inj hSplit (by simp [int3store])
  refine ⟨?_, by simpa using hBack⟩
  rw [uint3korr, hFront, int3store, ofLowBytes_lowBytes hLength]

/-- What is found in a header. -/
theorem wireHeader_read (buff : Nat → UInt8) (pos nr : Nat) {compress : Bool} {length complen : Nat}
    (hLength : length < 256 ^ 3) (hComplen : complen < 256 ^ 3) (hPlain : compress = false → complen = 0) :
    let buff₁ := store buff pos (wireHeader compress length nr complen)
    uint3korr buff₁ pos = length ∧ buff₁ (pos + 3) = UInt8.ofNat nr ∧
      (if compress then uint3korr buff₁ (pos + netHeaderSize) else 0) = complen := by
  intro buff₁
  have hStored : load buff₁ pos (wireHeader compress length nr complen).length =
    wireHeader compress length nr complen := load_store
  rw [length_wireHeader] at hStored
  cases compress with
  | false =>
    obtain ⟨hLen, hNr⟩ := @uint3korr_header buff₁ pos length nr hLength
      (by simpa [wireHeader] using hStored)
    exact ⟨hLen, hNr, by simp [hPlain rfl]⟩
  | true =>
    rw [if_pos rfl, load_add, wireHeader, if_pos rfl] at hStored
    obtain ⟨hFront, hBack⟩ := append_inj hStored (by rw [length_load, length_header])
    obtain ⟨hLen, hNr⟩ := uint3korr_header hLength hFront
    refine ⟨hLen, hNr, ?_⟩
    rw [compHeaderSize] at hBack
    rw [if_pos rfl, uint3korr, hBack, int3store, ofLowBytes_lowBytes hComplen]

section
variable (net : Net) (data rest : Bytes) (chunks : List Nat) (hRoomy : net.Roomy)
  (hWhere : net.whereB ≤ net.maxPacket)
include net data rest chunks hRoomy hWhere

/-- The data of a packet goes behind what is in the buffer. -/
theorem readData_spec {complen : Nat} (hNone : data = [] → complen = 0)
    (hAllows : net.Allows (max data.length complen + net.whereB)) :
    ∃ net' chunks', readData net ⟨data ++ rest, chunks⟩ data.length complen =
        .ok (some data.length, net', ⟨rest, chunks'⟩) ∧ Stored net net' data complen := by
  rw [readData]
  by_cases hEmpty : data.length = 0
  · obtain rfl := length_eq_zero_iff.mp hEmpty
    refine ⟨net, chunks, rfl, hRoomy, ?_, id, rfl, rfl, rfl, rfl, rfl, rfl⟩
    rw [hNone rfl]
    exact hWhere
  · obtain ⟨size, maxPacket, writePos, hRoom, hLe, hSize, hLimit⟩ := room_spec hRoomy hAllows
    have hFits : net.whereB + data.length ≤ size := by
      rw [hSize]
      omega
    obtain ⟨chunks', hRead⟩ := readBytes_spec { net with size, maxPacket, writePos } data rest chunks
      net.whereB hFits (Nat.lt_succ_self _)
    refine ⟨{ net with size, maxPacket, writePos, buff := store net.buff net.whereB data }, chunks', ?_,
      hSize, ?_, hLimit, rfl, rfl, rfl, rfl, load_store_of_le (by omega), load_store⟩
    · rw [if_neg hEmpty, hRoom]
      simp only [hRead]
      rfl
    · simp only
      omega

section
variable {nr complen : Nat} (hNr : UInt8.ofNat nr = UInt8.ofNat net.pktNr)
  (hLength : data.length < 256 ^ 3) (hComplen : complen < 256 ^ 3)
  (hPlain : net.compress = false → complen = 0)
include hNr hLength hComplen hPlain

/-- The header of a packet is read, and then its data. -/
theorem myRealRead_header : ∃ buff chunks', load buff 0 net.whereB = load net.buff 0 net.whereB ∧
      myRealRead net ⟨wireHeader net.compress data.length nr complen ++ (data ++ rest), chunks⟩ =
        (readData { net with buff, pktNr := net.pktNr + 1, compressPktNr := net.pktNr + 1 }
          ⟨data ++ rest, chunks'⟩ data.length complen).map
          fun (len, net, vio) => ((len, complen), net, vio) := by
  obtain ⟨hLen, hNumber, hComp⟩ := wireHeader_read net.buff net.whereB nr hLength hComplen hPlain
  obtain ⟨head, hHead⟩ : ∃ head, head = wireHeader net.compress data.length nr complen := ⟨_, rfl⟩
  rw [← hHead] at hLen hNumber hComp ⊢
  have hHeadLength : head.length =
      if net.compress then netHeaderSize + compHeaderSize else netHeaderSize := by
    rw [hHead, length_wireHeader]
  have hFits : net.whereB + head.length ≤ net.size := by
    rw [hRoomy, hHeadLength]
    split <;> omega
  obtain ⟨chunks', hFirst⟩ := readBytes_spec net head _ chunks net.whereB hFits
    (Nat.lt_succ_self _)
  refine ⟨store net.buff net.whereB head, chunks', load_store_of_le (by omega), ?_⟩
  rw [myRealRead, ← hHeadLength, hFirst]
  simp only [bind, Except.bind, hNumber, hNr, ne_eq, not_true_eq_false, if_false, hLen, hComp]
  rfl

/-- A packet is read behind what is in the buffer. -/
theorem myRealRead_spec (hNone : data = [] → complen = 0)
    (hAllows : net.Allows (max data.length complen + net.whereB)) : ∃ net' chunks', myRealRead net
        ⟨wireHeader net.compress data.length nr complen ++ (data ++ rest), chunks⟩ =
        .ok ((some data.length, complen), net', ⟨rest, chunks'⟩) ∧
      Stored { net with pktNr := net.pktNr + 1 } net' data complen := by
  obtain ⟨buff, chunks₁, hBefore, hHeader⟩ :=
    myRealRead_header net data rest chunks hRoomy hWhere hNr hLength hComplen hPlain
  obtain ⟨net', chunks', hData, hStored⟩ := readData_spec
    { net with buff, pktNr := net.pktNr + 1, compressPktNr := net.pktNr + 1 }
    data rest chunks₁ hRoomy hWhere hNone hAllows
  refine ⟨net', chunks', by rw [hHeader, hData]; rfl, hStored.roomy, hStored.room, hStored.limit,
    hStored.compress, hStored.maxPacketSize, hStored.pktNr, hStored.whereB,
    hStored.before.trans hBefore, hStored.data_eq⟩

end

end

end MySQL.NetServ
