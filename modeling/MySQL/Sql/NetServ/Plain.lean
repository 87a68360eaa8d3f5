import MySQL.Sql.NetServ.Read

/-! The protocol without compression: what was written is read. -/
namespace MySQL.NetServ

open Library Framing Nat

structure Arrived (net net' : Net) (message : Bytes) : Prop where
  roomy : net'.Roomy
  room : net.whereB + message.length ≤ net'.maxPacket
  compress : net'.compress = net.compress
  maxPacketSize : net'.maxPacketSize = net.maxPacketSize
  pktNr : net'.pktNr = net.pktNr + count maxPacketLength message
  buff : load net'.buff 0 (net.whereB + message.length) = load net.buff 0 net.whereB ++ message

theorem wireHeader_plain (length nr : Nat) : wireHeader false length nr 0 = header length nr := by
  simp [wireHeader]

structure Net.Expects (net : Net) (nr : Nat) : Prop where
  roomy : net.Roomy
  whereB_le : net.whereB ≤ net.maxPacket
  plain : net.compress = false
  pktNr_eq : UInt8.ofNat nr = UInt8.ofNat net.pktNr

/-- One packet without compression. -/
theorem readPlain_spec {net : Net} {nr : Nat} (h : net.Expects nr) (data rest : Bytes) (chunks : List Nat)
    (hLength : data.length ≤ maxPacketLength) (hAllows : net.Allows (data.length + net.whereB)) :
    ∃ net' chunks', myRealRead net ⟨packet header nr data ++ rest, chunks⟩ =
        .ok ((some data.length, 0), net', ⟨rest, chunks'⟩) ∧
      Stored { net with pktNr := net.pktNr + 1 } net' data 0 := by
  have hLt : data.length < 256 ^ 3 := lt_of_le_of_lt hLength maxPacketLength_lt
  obtain ⟨net', chunks', hRead, hStored⟩ := myRealRead_spec net data rest chunks h.roomy h.whereB_le
    h.pktNr_eq hLt (by decide) (fun _ => rfl) (fun _ => rfl) (by rwa [max_zero])
  rw [h.plain] at hRead
  exact ⟨net', chunks', hRead, hStored⟩

theorem Stored.load_eq {net net' : Net} {data : Bytes} {complen : Nat} (h : Stored net net' data complen) :
    load net'.buff 0 (net.whereB + data.length) = load net.buff 0 net.whereB ++ data := by
  rw [load_add, h.before, zero_add, h.data_eq]

theorem ofNat_add_congr {a b : Nat} (h : UInt8.ofNat a = UInt8.ofNat b) (n : Nat) :
    UInt8.ofNat (a + n) = UInt8.ofNat (b + n) := by
  rw [UInt8.ofNat_add, UInt8.ofNat_add, h]

structure Continued (net net' : Net) (data : Bytes) : Prop where
  roomy : net'.Roomy
  whereB : net'.whereB = net.whereB + maxPacketLength
  room : net'.whereB ≤ net'.maxPacket
  limit : net.maxPacket ≤ 2 ^ 32 - ioSize → net'.maxPacket ≤ 2 ^ 32 - ioSize
  compress : net'.compress = net.compress
  maxPacketSize : net'.maxPacketSize = net.maxPacketSize
  pktNr : net'.pktNr = net.pktNr + 1
  buff : load net'.buff 0 net'.whereB = load net.buff 0 net.whereB ++ data

theorem Continued.expects {net net' : Net} {data : Bytes} (h : Continued net net' data) {nr : Nat}
    (hExpects : net.Expects nr) : net'.Expects (nr + 1) :=
  ⟨h.roomy, h.room, h.compress.trans hExpects.plain, by
    rw [h.pktNr]; exact ofNat_add_congr hExpects.pktNr_eq 1⟩

theorem readPackets_full {message : Bytes} (hLong : maxPacketLength ≤ message.length) (rest : Bytes)
    {net : Net} {nr : Nat} (h : net.Expects nr) (chunks : List Nat) (total fuel : Nat)
    (hAllows : net.Allows (maxPacketLength + net.whereB)) :
    ∃ net' chunks',
      readPackets (fuel + 1) net ⟨encode header maxPacketLength nr message ++ rest, chunks⟩ total =
        readPackets fuel net'
          ⟨encode header maxPacketLength (nr + 1) (message.drop maxPacketLength) ++ rest, chunks'⟩
          (total + maxPacketLength) ∧
      Continued net net' (message.take maxPacketLength) := by
  have hTake := List.length_take_of_le hLong
  obtain ⟨net₁, chunks', hRead, hStored⟩ := readPlain_spec h _
    (encode header maxPacketLength (nr + 1) _ ++ rest) chunks
    (le_of_eq hTake) (by rwa [hTake])
  have hRoom := hStored.room
  have hLoad := hStored.load_eq
  have hWhere₁ : net₁.whereB = net.whereB := hStored.whereB
  rw [hTake] at hRoom
  rw [hTake] at hLoad
  refine ⟨{ net₁ with whereB := net₁.whereB + maxPacketLength }, chunks', ?_, hStored.roomy, ?_, ?_,
    hStored.limit, hStored.compress, hStored.maxPacketSize, hStored.pktNr, ?_⟩
  · rw [encode_of_le _ maxPacketLength_pos hLong, List.append_assoc, readPackets, hRead]
    simp only [bind, Except.bind, hTake, if_true]
  · simp only [hWhere₁]
  · simp only [hWhere₁]
    exact hRoom
  · simp only [hWhere₁]
    exact hLoad

theorem readPackets_spec (message rest : Bytes) : ∀ (net : Net) (chunks : List Nat) (total fuel nr : Nat),
    net.Expects nr → net.Allows (net.whereB + message.length) → count maxPacketLength message ≤ fuel →
    ∃ net' chunks', readPackets fuel net ⟨encode header maxPacketLength nr message ++ rest, chunks⟩ total =
        .ok (some (message.length + total), net', ⟨rest, chunks'⟩) ∧ Arrived net net' message := by
  induction message using packet_induction maxPacketLength_pos with
  | hLast message hShort =>
    intro net chunks total fuel nr h hAllows hFuel
    rw [count_of_lt hShort] at hFuel
    obtain ⟨fuel, rfl⟩ := exists_eq_succ_of_ne_zero (ne_of_gt hFuel)
    obtain ⟨net', chunks', hRead, hStored⟩ := readPlain_spec h message rest chunks (le_of_lt hShort)
      (by rwa [add_comm])
    refine ⟨net', chunks', ?_, hStored.roomy, ?_, hStored.compress, hStored.maxPacketSize, ?_,
      hStored.load_eq⟩
    · rw [readPackets, encode_of_lt _ hShort, hRead]
      simp only [bind, Except.bind, Option.some.injEq, if_neg (Nat.ne_of_lt hShort)]
      rfl
    · have hRoom := hStored.room
      rwa [max_zero] at hRoom
    · rw [count_of_lt hShort]
      exact hStored.pktNr
  | hFull message hLong ih =>
    intro net chunks total fuel nr h ⟨hMax, hLimit⟩ hFuel
    rw [count_of_le maxPacketLength_pos hLong] at hFuel
    obtain ⟨fuel, rfl⟩ := exists_eq_succ_of_ne_zero (show fuel ≠ 0 by omega)
    have hSum := add_length_drop hLong
    obtain ⟨net₁, chunks₁, hStep, hNext⟩ := readPackets_full hLong rest h chunks total fuel
      ⟨by omega, by omega⟩
    have hTotal : net₁.whereB + (message.drop maxPacketLength).length = net.whereB + message.length := by
      rw [hNext.whereB]
      omega
    obtain ⟨net', chunks', hRest, hArrived⟩ := ih net₁ chunks₁ _ fuel (nr + 1)
      (hNext.expects h) (by rw [hTotal, Net.Allows, hNext.maxPacketSize]; exact ⟨hMax, hLimit⟩) (by omega)
    refine ⟨net', chunks', ?_, hArrived.roomy, ?_, hArrived.compress.trans hNext.compress,
      hArrived.maxPacketSize.trans hNext.maxPacketSize, ?_, ?_⟩
    · rw [hStep, hRest]
      congr 3
      omega
    · have hRoom := hArrived.room
      rwa [hTotal] at hRoom
    · rw [hArrived.pktNr, hNext.pktNr, count_of_le maxPacketLength_pos hLong, ← add_assoc]
    · have hLoad := hArrived.buff
      rwa [hTotal, hNext.buff, List.append_assoc, List.take_append_drop] at hLoad

theorem readBytes_overrun {net : Net} {data rest : Bytes} (chunks : List Nat) {pos fuel : Nat}
    (hSome : data ≠ []) (hSize : net.size ≤ pos) (hFuel : 0 < fuel) :
    readBytes fuel net ⟨data ++ rest, chunks⟩ pos data.length = .error .overrun := by
  obtain ⟨fuel, rfl⟩ := exists_eq_succ_of_ne_zero (ne_of_gt hFuel)
  have hPos : 0 < data.length := List.length_pos_iff.mpr hSome
  obtain ⟨n, hn⟩ : ∃ n, n = min data.length (max 1 (chunks.headD data.length)) := ⟨_, rfl⟩
  have hTake : ((data ++ rest).take n).length = n := by
    rw [List.length_take, List.length_append]
    omega
  have hRead : vioRead ⟨data ++ rest, chunks⟩ data.length =
      .ok ((data ++ rest).take n, ⟨(data ++ rest).drop n, chunks.tail⟩) := by
    have hNil : data ++ rest ≠ [] := fun hNil => hSome (List.append_eq_nil_iff.mp hNil).1
    simp only [vioRead, if_neg hNil, ← hn]
  have hPut : net.put pos ((data ++ rest).take n) = .error .overrun := by
    rw [Net.put, if_neg]
    rintro (hNil | hFits)
    · rw [hNil, List.length_nil] at hTake
      omega
    · omega
  rw [readBytes, if_neg (ne_of_gt hPos), hRead]
  simp only [bind, Except.bind, hPut]

/-- The number of bytes to allocate is cut off at 32 bits. -/
theorem readData_overrun (net : Net) {data : Bytes} (rest : Bytes) (chunks : List Nat)
    (hLength : data.length ≤ maxPacketLength)
    (hSome : data ≠ []) (hMax : data.length + net.whereB < net.maxPacketSize)
    (hBefore : net.maxPacket ≤ 2 ^ 32 - ioSize) (hOver : 2 ^ 32 - ioSize < data.length + net.whereB) :
    readData net ⟨data ++ rest, chunks⟩ data.length 0 = .error .overrun := by
  have hRoom : net.room (data.length + net.whereB) = (false, { net with
        size := allocated (pktLength (data.length + net.whereB))
        maxPacket := pktLength (data.length + net.whereB), writePos := 0 }) := by
    rw [Net.room, if_pos (by omega), netRealloc, if_neg (by omega)]
    rfl
  have hSmall : allocated (pktLength (data.length + net.whereB)) ≤ net.whereB := by
    have hMaxLength : maxPacketLength = 16777215 := rfl
    rw [allocated, pktLength, netHeaderSize, compHeaderSize]
    rw [ioSize] at hBefore hOver ⊢
    omega
  rw [readData, if_neg (mt List.length_eq_zero_iff.mp hSome), max_zero, hRoom]
  simp only
  rw [readBytes_overrun chunks hSome hSmall (succ_pos _)]
  rfl

theorem readPlain_overrun {net : Net} {nr : Nat} (h : net.Expects nr) {data : Bytes} (rest : Bytes)
    (chunks : List Nat) (hLength : data.length ≤ maxPacketLength)
    (hSome : data ≠ []) (hMax : data.length + net.whereB < net.maxPacketSize)
    (hBefore : net.maxPacket ≤ 2 ^ 32 - ioSize) (hOver : 2 ^ 32 - ioSize < data.length + net.whereB) :
    myRealRead net ⟨packet header nr data ++ rest, chunks⟩ = .error .overrun := by
  have hLt : data.length < 256 ^ 3 := lt_of_le_of_lt hLength maxPacketLength_lt
  obtain ⟨buff, chunks', -, hHeader⟩ := myRealRead_header net data rest chunks h.roomy h.whereB_le
    h.pktNr_eq hLt (by decide) fun _ => rfl
  have hWire : wireHeader net.compress data.length nr 0 ++ (data ++ rest) =
      packet header nr data ++ rest := by
    rw [h.plain, wireHeader_plain, ← List.append_assoc, packet]
  rw [← hWire, hHeader, readData_overrun
    { net with buff, pktNr := net.pktNr + 1, compressPktNr := net.pktNr + 1 } rest chunks' hLength hSome
    hMax hBefore hOver]
  rfl

/-- A message that needs a buffer of more than 32 bits is written outside of it. -/
theorem readPackets_overrun (message rest : Bytes) : ∀ (net : Net) (chunks : List Nat)
    (total fuel nr : Nat), net.Expects nr → net.whereB + message.length < net.maxPacketSize →
    net.maxPacket ≤ 2 ^ 32 - ioSize → 2 ^ 32 - ioSize < net.whereB + message.length →
    count maxPacketLength message ≤ fuel →
    readPackets fuel net ⟨encode header maxPacketLength nr message ++ rest, chunks⟩ total =
      .error .overrun := by
  induction message using packet_induction maxPacketLength_pos with
  | hLast message hShort =>
    intro net chunks total fuel nr h hMax hBefore hOver hFuel
    rw [count_of_lt hShort] at hFuel
    obtain ⟨fuel, rfl⟩ := exists_eq_succ_of_ne_zero (ne_of_gt hFuel)
    have hSome : message ≠ [] := by
      rintro rfl
      have hWhere := h.whereB_le
      rw [List.length_nil] at hOver
      omega
    rw [encode_of_lt _ hShort, readPackets, readPlain_overrun h rest chunks (le_of_lt hShort)
      hSome (by omega) hBefore (by omega)]
    rfl
  | hFull message hLong ih =>
    intro net chunks total fuel nr h hMax hBefore hOver hFuel
    rw [count_of_le maxPacketLength_pos hLong] at hFuel
    obtain ⟨fuel, rfl⟩ := exists_eq_succ_of_ne_zero (show fuel ≠ 0 by omega)
    have hSum := add_length_drop hLong
    by_cases hFits : maxPacketLength + net.whereB ≤ 2 ^ 32 - ioSize
    · obtain ⟨net₁, chunks₁, hStep, hNext⟩ := readPackets_full hLong rest h chunks total fuel
        ⟨by omega, hFits⟩
      have hTotal : net₁.whereB + (message.drop maxPacketLength).length = net.whereB + message.length := by
        rw [hNext.whereB]
        omega
      rw [hStep]
      exact ih net₁ chunks₁ _ fuel (nr + 1) (hNext.expects h)
        (by rw [hTotal, hNext.maxPacketSize]; exact hMax) (hNext.limit hBefore) (by omega) (by omega)
    · have hTake := List.length_take_of_le hLong
      have hSome : message.take maxPacketLength ≠ [] := by
        intro hNil
        rw [hNil] at hTake
        exact absurd hTake (Nat.ne_of_lt maxPacketLength_pos)
      rw [encode_of_le _ maxPacketLength_pos hLong, List.append_assoc, readPackets,
        readPlain_overrun h _ chunks (le_of_eq hTake) hSome (by omega) hBefore (by omega)]
      rfl

def Net.message (net : Net) (len : Option Nat) : Option Bytes := len.map (load net.buff net.readPos)

structure PlainReader (net : Net) (maxPacketSize pktNr : Nat) : Prop where
  roomy : net.Roomy
  whereB : net.whereB = 0
  compress : net.compress = false
  maxPacketSize_eq : net.maxPacketSize = maxPacketSize
  pktNr_eq : UInt8.ofNat pktNr = UInt8.ofNat net.pktNr

/-- One message is read. -/
theorem myNetReadPlain_spec {net : Net} {maxPacketSize pktNr : Nat} (h : PlainReader net maxPacketSize pktNr)
    (message rest : Bytes) (chunks : List Nat)
    (hAllows : message.length < maxPacketSize ∧ message.length ≤ 2 ^ 32 - ioSize) :
    ∃ len net' chunks', myNetReadPlain net
        ⟨encode header maxPacketLength pktNr message ++ rest, chunks⟩ = .ok (len, net', ⟨rest, chunks'⟩) ∧
      net'.message len = some message ∧
      PlainReader net' maxPacketSize (pktNr + count maxPacketLength message) := by
  have hFuel : count maxPacketLength message ≤
      (encode header maxPacketLength pktNr message ++ rest).length + 1 := by
    have hCount := count_le_length maxPacketLength_pos header_ne_nil pktNr message
    rw [List.length_append]
    omega
  obtain ⟨net₁, chunks', hRead, hArrived⟩ := readPackets_spec message rest net chunks 0 _ pktNr
    ⟨h.roomy, by rw [h.whereB]; exact zero_le _, h.compress, h.pktNr_eq⟩
    (by rw [Net.Allows, h.whereB, zero_add, h.maxPacketSize_eq]; exact hAllows) hFuel
  have hRoom := hArrived.room
  have hLoad := hArrived.buff
  rw [h.whereB, zero_add, load_zero] at hLoad
  have hSize : message.length + 1 ≤ net₁.size := by
    rw [hArrived.roomy, netHeaderSize]
    omega
  obtain ⟨net₂, hNet₂⟩ : ∃ net₂ : Net, net₂ =
    { net₁ with whereB := 0, readPos := 0, buff := store net₁.buff message.length [0] } := ⟨_, rfl⟩
  have hPut : Net.put { net₁ with whereB := 0, readPos := 0 } message.length [0] = .ok net₂ := by
    rw [hNet₂]
    exact Net.put_ok hSize
  refine ⟨some message.length, net₂, chunks', ?_, ?_, ?_⟩
  · rw [myNetReadPlain, hRead]
    simp only [bind, Except.bind, h.whereB, add_zero, zero_add]
    rw [hPut]
    rfl
  · rw [hNet₂, Net.message]
    exact congrArg some ((load_store_of_le (by simp)).trans hLoad)
  · rw [hNet₂]
    refine ⟨hArrived.roomy, rfl, hArrived.compress.trans h.compress,
      hArrived.maxPacketSize.trans h.maxPacketSize_eq, ?_⟩
    rw [hArrived.pktNr]
    exact ofNat_add_congr h.pktNr_eq _

inductive Send where
  | write (packet : Bytes)
  | command (code : UInt8) (header packet : Bytes)
  | flush

def Send.messages : Send → List Bytes
  | .write packet => [packet]
  | .command code header packet => [code :: header ++ packet]
  | .flush => []

def Send.run (zlib : Zlib) (w : Writer) : Send → Except Fault Writer
  | .write packet => myNetWrite zlib w packet
  | .command code header packet => netWriteCommand zlib w code header packet
  | .flush => .ok (netFlush zlib w)

def sendAll (zlib : Zlib) (w : Writer) (sends : List Send) : Except Fault Writer :=
  sends.foldlM (Send.run zlib) w

def Send.Short : Send → Prop
  | .command _ header _ => header.length < maxPacketLength
  | _ => True

/-- The answers of `count` calls of `my_net_read`: the messages, none for an error. -/
def readMessages (zlib : Zlib) : (count : Nat) → Net → Vio → Except Fault (List (Option Bytes))
  | 0, _, _ => .ok []
  | n + 1, net, vio => do
    let (len, net', vio) ← myNetRead zlib net vio
    let messages ← readMessages zlib n net' vio
    return net'.message len :: messages

section
variable {zlib : Zlib}

/-- Without compression what was written is the packets of the messages. -/
theorem Wrote.sent_plain {w w' : Writer} {bytes : Bytes} (h : Wrote zlib w w' bytes)
    (hPlain : w.net.compress = false) : w.sent ++ (w.pending ++ bytes) = w'.sent ++ w'.pending := by
  obtain ⟨out, blocks, hSent, hCarries, hBytes, -⟩ := h.sent
  have hOut := hCarries.out_eq
  rw [hPlain, if_neg (by simp)] at hOut
  rw [hSent, hBytes, hOut, List.append_assoc]

theorem sendAll_plain (zlib : Zlib) (w : Writer) (hOk : w.Ok) (hPlain : w.net.compress = false) (sends : List Send)
    (hShort : ∀ send ∈ sends, send.Short) :
    ∃ w', sendAll zlib w sends = .ok w' ∧
      Wrote zlib w w' (encodeAll header maxPacketLength w.net.pktNr (sends.flatMap Send.messages)) := by
  induction sends generalizing w with
  | nil => exact ⟨w, rfl, .refl hOk⟩
  | cons send sends ih =>
    have hFirst : ∃ w₁, send.run zlib w = .ok w₁ ∧
        Wrote zlib w w₁ (encodeAll header maxPacketLength w.net.pktNr send.messages) ∧
        w₁.net.pktNr = w.net.pktNr + countAll maxPacketLength send.messages := by
      cases send with
      | write packet =>
        obtain ⟨w₁, hRun, hWrote, hNr⟩ := myNetWrite_spec zlib hOk packet
        exact ⟨w₁, hRun, by simpa [Send.messages, encodeAll] using hWrote,
          by simpa [Send.messages, countAll] using hNr⟩
      | command code head packet =>
        obtain ⟨w₁, hRun, hWrote, -, hNr⟩ := netWriteCommand_spec zlib hOk code
          (hShort _ List.mem_cons_self) packet
        exact ⟨w₁, hRun, by simpa [Send.messages, encodeAll] using hWrote,
          by simpa [Send.messages, countAll] using hNr hPlain⟩
      | flush =>
        obtain ⟨hWrote, -, hNr⟩ := netFlush_spec zlib hOk
        exact ⟨_, rfl, hWrote, hNr hPlain⟩
    obtain ⟨w₁, hRun, hWrote, hNr⟩ := hFirst
    obtain ⟨w', hRest, hWrote'⟩ := ih w₁ hWrote.ok (hWrote.compress.trans hPlain)
      fun s hs => hShort s (List.mem_cons_of_mem _ hs)
    refine ⟨w', ?_, ?_⟩
    · rw [sendAll, List.foldlM_cons, hRun]
      exact hRest
    · rw [List.flatMap_cons, encodeAll_append, ← hNr]
      exact hWrote.trans hWrote'

theorem readMessages_plain {net : Net} {maxPacketSize pktNr : Nat}
    (h : PlainReader net maxPacketSize pktNr) (messages : List Bytes) (chunks : List Nat)
    (hAllows : ∀ message ∈ messages, message.length < maxPacketSize ∧ message.length ≤ 2 ^ 32 - ioSize) :
    readMessages zlib messages.length net ⟨encodeAll header maxPacketLength pktNr messages, chunks⟩ =
      .ok (messages.map some) := by
  induction messages generalizing net pktNr chunks with
  | nil => rfl
  | cons message messages ih =>
    obtain ⟨len, net', chunks', hRead, hMessage, hReader⟩ := myNetReadPlain_spec h message
      (encodeAll header maxPacketLength _ messages) chunks
      (hAllows message List.mem_cons_self)
    have hRest := ih hReader chunks' fun m hm => hAllows m (List.mem_cons_of_mem _ hm)
    rw [List.length_cons, readMessages, myNetRead, h.compress, if_neg (by simp), encodeAll, hRead]
    simp only [bind, Except.bind, hRest, hMessage]
    rfl

/-- The messages of a session on two connections with buffers of any size: after a last
`net_flush` the other side reads what was sent. -/
def RoundTrip (zlib : Zlib) (compress : Bool) (sends : List Send) (buff buff' : Nat → UInt8)
    (maxPacket maxPacket' maxPacketSize maxPacketSize' pktNr : Nat) (chunks : List Nat) : Prop :=
  ∃ w, sendAll zlib ⟨myNetInit buff maxPacket maxPacketSize pktNr compress, []⟩ sends = .ok w ∧
    readMessages zlib (sends.flatMap Send.messages).length
        (myNetInit buff' maxPacket' maxPacketSize' pktNr compress) ⟨(netFlush zlib w).sent, chunks⟩ =
      .ok ((sends.flatMap Send.messages).map some)

theorem writer_ok {maxPacket : Nat} (hMax : maxPacket + netHeaderSize + compHeaderSize < 2 ^ 32)
    (buff : Nat → UInt8) (maxPacketSize pktNr : Nat) (compress : Bool) :
    Writer.Ok ⟨myNetInit buff maxPacket maxPacketSize pktNr compress, []⟩ := by
  refine ⟨?_, zero_le _⟩
  simp only [myNetInit, allocated, mod_eq_of_lt hMax]
  omega

/-- Without compression, messages that a buffer has room for are read as they were sent.
The sizes of buffers are computed in 32 bits. -/
theorem roundTrip_plain (zlib : Zlib) (sends : List Send) (hShort : ∀ send ∈ sends, send.Short)
    (buff buff' : Nat → UInt8) {maxPacket maxPacket' : Nat} (maxPacketSize : Nat) {maxPacketSize' : Nat}
    (pktNr : Nat) (chunks : List Nat)
    (hLarge : ∀ message ∈ sends.flatMap Send.messages, message.length < maxPacketSize')
    (hMax : maxPacket + netHeaderSize + compHeaderSize < 2 ^ 32)
    (hMax' : maxPacket' + netHeaderSize + compHeaderSize < 2 ^ 32)
    (hLimit : ∀ message ∈ sends.flatMap Send.messages, message.length ≤ 2 ^ 32 - ioSize) :
    RoundTrip zlib false sends buff buff' maxPacket maxPacket' maxPacketSize maxPacketSize' pktNr
      chunks := by
  obtain ⟨w, hSend, hWrote⟩ := sendAll_plain zlib _
    (writer_ok hMax buff maxPacketSize pktNr false) rfl sends hShort
  obtain ⟨hFlush, hPending, -⟩ := netFlush_spec zlib hWrote.ok
  refine ⟨w, hSend, ?_⟩
  have hSent := (hWrote.trans hFlush).sent_plain rfl
  rw [hPending, List.append_nil, List.append_nil] at hSent
  rw [← hSent]
  exact readMessages_plain ⟨roomy_of_lt rfl hMax', rfl, rfl, rfl, rfl⟩ _ chunks fun message hMem =>
    ⟨hLarge message hMem, hLimit message hMem⟩

end

def storeOnly : Zlib where
  compress packet := 0 :: packet
  uncompress packet _ := some packet.tail
  compress_ne_nil := by simp
  uncompress_compress := by simp

theorem roundTrip_two_messages :
    RoundTrip storeOnly false [.write [1, 2, 3], .flush, .command 3 [4] [5, 6]] (fun _ => 0) (fun _ => 0)
      16384 8 1000 1000 255 [1, 2] :=
  roundTrip_plain storeOnly _ (by simp [Send.Short, maxPacketLength]) _ _ 1000 255 [1, 2]
    (by simp [Send.messages]) (by decide) (by decide) (by simp [Send.messages, ioSize])

/-- A message of 4 GiB: the size of the buffer for it is cut off at 32 bits. -/
theorem not_roundTrip_plain :
    ¬ ∀ (message : Bytes) (maxPacketSize : Nat), message.length < maxPacketSize →
      RoundTrip storeOnly false [.write message] (fun _ => 0) (fun _ => 0) 16384 16384 1000
        maxPacketSize 0 [] := by
  intro h
  obtain ⟨message, hLength⟩ : ∃ message : Bytes, message.length = 2 ^ 32 :=
    ⟨List.replicate (2 ^ 32) 0, List.length_replicate⟩
  obtain ⟨w, hSend, hRead⟩ := h message (2 ^ 33) (by rw [hLength]; decide)
  have hOk := writer_ok (show 16384 + netHeaderSize + compHeaderSize < 2 ^ 32 by decide) (fun _ => 0) 1000 0
    false
  obtain ⟨w', hSend', hWrote⟩ := sendAll_plain storeOnly _ hOk rfl [.write message] (by simp [Send.Short])
  rw [hSend] at hSend'
  obtain rfl := Except.ok.inj hSend'
  obtain ⟨hFlush, hPending, -⟩ := netFlush_spec storeOnly hWrote.ok
  have hSent := (hWrote.trans hFlush).sent_plain rfl
  rw [hPending, List.append_nil, List.append_nil] at hSent
  have hMessages : [Send.write message].flatMap Send.messages = [message] := rfl
  have hStream : (netFlush storeOnly w).sent = encode header maxPacketLength 0 message ++ [] := by
    rw [← hSent, hMessages, encodeAll, encodeAll]
    rfl
  have hFuel : count maxPacketLength message ≤
      (encode header maxPacketLength 0 message ++ []).length + 1 := by
    have hCount := count_le_length maxPacketLength_pos header_ne_nil 0 message
    rw [List.append_nil]
    omega
  have hOver := readPackets_overrun message [] (myNetInit (fun _ => 0) 16384 (2 ^ 33) 0 false) [] 0 _ 0
    ⟨roomy_of_lt rfl (by decide), zero_le _, rfl, rfl⟩
    (by rw [hLength]; decide) (by decide) (by rw [hLength]; decide) hFuel
  rw [hMessages, hStream, List.length_singleton, readMessages, myNetRead, myNetReadPlain] at hRead
  simp only [myNetInit] at hRead hOver
  rw [hOver] at hRead
  simp [bind, Except.bind] at hRead

end MySQL.NetServ
