import MySQL.Sql.NetServ.Scan

/-! The protocol with compression: what was written is read, unless a message of a
multiple of 2^24 - 1 bytes and the one behind it come in one compressed packet. -/
namespace MySQL.NetServ

open List Library Framing Nat

structure CompressedReader (net : Net) (maxPacketSize frameNr : Nat) (left : Bytes) : Prop where
  roomy : net.Roomy
  compress : net.compress = true
  maxPacketSize_eq : net.maxPacketSize = maxPacketSize
  pktNr_eq : UInt8.ofNat frameNr = UInt8.ofNat net.pktNr
  bound : net.bufLength ≤ net.maxPacket
  remain_le : net.remainInBuf ≤ net.bufLength
  left_eq : load (store net.buff (net.bufLength - net.remainInBuf) [net.saveChar])
    (net.bufLength - net.remainInBuf) net.remainInBuf = left

variable {net : Net} {maxPacketSize frameNr : Nat} {left : Bytes}

theorem startScan_spec (h : CompressedReader net maxPacketSize frameNr left) :
    ∃ net' scan, startScan net = .ok (net', scan) ∧ net.SameBut net' ∧ Scanning net' scan [] left ∧
      Partial scan [] := by
  have hBound := h.bound
  have hLe := h.remain_le
  rw [startScan]
  split
  · have hSize : net.bufLength - net.remainInBuf + [net.saveChar].length ≤ net.size := by
      rw [h.roomy, length_singleton]
      omega
    refine ⟨{ net with buff := store net.buff _ [net.saveChar] },
      ⟨net.bufLength, net.bufLength - net.remainInBuf, net.bufLength - net.remainInBuf, 0⟩,
      by simp only [Net.put_ok hSize]; rfl, ⟨_, rfl⟩,
      ⟨h.roomy, h.compress, hBound, sub_le _ _, ?_, .inl ⟨rfl, rfl, rfl⟩⟩,
      fun hMulti => absurd rfl hMulti, fun hMulti => absurd rfl hMulti, Nat.dvd_zero _⟩
    rw [Nat.sub_sub_self hLe, h.left_eq]
  · rename_i hNone
    have hZero : net.remainInBuf = 0 := by simpa using hNone
    have hLeft := h.left_eq
    rw [hZero] at hLeft
    exact ⟨net, ⟨0, 0, 0, 0⟩, rfl, ⟨net.buff, rfl⟩,
      ⟨h.roomy, h.compress, zero_le _, le_refl _, hLeft, .inl ⟨rfl, rfl, rfl⟩⟩,
      fun hMulti => absurd rfl hMulti, fun hMulti => absurd rfl hMulti, Nat.dvd_zero _⟩

/-- What the next call finds in the buffer. After a message that ends with an empty packet
the saved character is the first of that packet's header, and it is restored behind it. -/
def restored (message rest : Bytes) : Bytes := if Full message then rest.set 0 0 else rest

variable {message : Bytes}

theorem endScan_spec {scan : Scan} {rest : Bytes} (h : Finished net scan message rest)
    (hMax : net.maxPacketSize = maxPacketSize) (hNr : UInt8.ofNat frameNr = UInt8.ofNat net.pktNr) :
    ∃ net', endScan net scan = .ok (message.length, net') ∧
      net'.message (some message.length) = some message ∧
      CompressedReader net' maxPacketSize frameNr (restored message rest) := by
  have hBound := h.bound
  have hStart := h.start_le
  have hLen : scan.startOfPacket - scan.firstPacketOffset - netHeaderSize - scan.multiBytePacket =
      message.length := by
    have hPosition := h.position
    split at hPosition <;> omega
  have hRoom : scan.firstPacketOffset + netHeaderSize + message.length ≤ scan.startOfPacket := by
    have hPosition := h.position
    split at hPosition <;> omega
  have hSize : scan.firstPacketOffset + netHeaderSize + message.length + 1 ≤ net.size := by
    have hHeader : 0 < netHeaderSize := by decide
    rw [h.roomy]
    omega
  have hRest := h.rest_eq
  obtain ⟨net', hNet'⟩ : ∃ net' : Net, net' = { net with
      readPos := scan.firstPacketOffset + netHeaderSize, bufLength := scan.bufLength
      remainInBuf := scan.bufLength - scan.startOfPacket
      saveChar := net.buff (scan.firstPacketOffset + netHeaderSize + message.length)
      buff := store net.buff (scan.firstPacketOffset + netHeaderSize + message.length) [0] } := ⟨_, rfl⟩
  refine ⟨net', ?_, ?_, ?_⟩
  · rw [endScan, hLen, hNet']
    rw [Net.put_ok hSize]
    rfl
  · rw [hNet', Net.message, Option.map_some]
    rw [load_store_of_le (le_refl _), h.message_eq]
  · rw [hNet']
    refine ⟨h.roomy, h.compress, hMax, hNr, hBound, sub_le _ _, ?_⟩
    rw [Nat.sub_sub_self hStart, restored]
    have hPosition := h.position
    split at hPosition
    · rename_i hFull
      obtain ⟨-, hPos, hZero⟩ := hPosition
      have hBehind : scan.firstPacketOffset + netHeaderSize + message.length + [(0 : UInt8)].length ≤
          scan.startOfPacket := by
        rw [hPos]
        exact Nat.add_le_add_left (by decide) _
      rw [if_pos hFull, hZero, load_store_one, load_store_of_ge hBehind, hRest]
    · rename_i hNotFull
      obtain ⟨-, hPos⟩ := hPosition
      rw [if_neg hNotFull, ← hPos, load_store_restore, hRest]

theorem length_le_frames (zlib : Zlib) (nr : Nat) (blocks : List Bytes) :
    blocks.length ≤ (frames zlib nr blocks).length := by
  induction blocks generalizing nr with
  | nil => exact zero_le _
  | cons block blocks ih =>
    have hRest := ih (nr + 1)
    have hHeader : 0 < netHeaderSize := by decide
    rw [length_cons, frames, frame, length_append, length_append, length_append,
      length_header]
    omega

theorem length_encode_message (nr : Nat) (message : Bytes) : (encode header maxPacketLength nr message).length =
    message.length + netHeaderSize * Framing.count maxPacketLength message :=
  length_encode maxPacketLength_pos length_header nr message

variable {blocks : List Bytes} {largest : Nat}

/-- Every packet of the message is in the buffer or in one of the compressed packets. -/
theorem count_le_fuel {tail : Bytes} {nr : Nat} (zlib : Zlib) (frameNr : Nat)
    (hBytes : left ++ blocks.flatten = encode header maxPacketLength nr message ++ tail)
    (hBlocks : BlocksOk largest blocks) : Framing.count maxPacketLength message + blocks.length ≤
      2 * (frames zlib frameNr blocks).length + left.length / maxPacketLength + 1 := by
  have hFrames := length_le_frames zlib frameNr blocks
  have hFlatten := length_flatten_le fun block hMem => (hBlocks block hMem).2.1
  have hMessage := length_encode_message nr message
  have hLength := congrArg length hBytes
  rw [length_append, length_append] at hLength
  have hDiv : message.length / maxPacketLength ≤ left.length / maxPacketLength + blocks.length :=
    calc message.length / maxPacketLength
      _ ≤ (left.length + blocks.length * maxPacketLength) / maxPacketLength :=
        Nat.div_le_div_right (by omega)
      _ = left.length / maxPacketLength + blocks.length := add_mul_div_right _ _ maxPacketLength_pos
  rw [Framing.count]
  omega

/-- One message is read. -/
theorem myNetReadCompressed_spec (zlib : Zlib) (h : CompressedReader net maxPacketSize frameNr left)
    {tail : Bytes} {nr : Nat} (chunks : List Nat)
    (hBytes : left ++ blocks.flatten = encode header maxPacketLength nr message ++ tail)
    (hBlocks : BlocksOk largest blocks)
    (hLarge : message.length + largest + 2 * netHeaderSize < maxPacketSize)
    (hLimit : message.length + largest + 2 * netHeaderSize ≤ 2 ^ 32 - ioSize) :
    ∃ len net' chunks' used rest blocks',
      pull (encode header maxPacketLength nr message).length left blocks =
        (encode header maxPacketLength nr message ++ rest, blocks') ∧
      myNetReadCompressed zlib net ⟨frames zlib frameNr blocks, chunks⟩ =
        .ok (len, net', ⟨frames zlib (frameNr + used) blocks', chunks'⟩) ∧
      net'.message len = some message ∧
      CompressedReader net' maxPacketSize (frameNr + used) (restored message rest) := by
  obtain ⟨net₁, scan, hStart, hSame, hScan, hPartial⟩ := startScan_spec h
  have hRead₁ := hSame.read
  have hFuel := count_le_fuel zlib frameNr hBytes hBlocks
  obtain ⟨fuel, hFuelEq⟩ := Nat.exists_eq_add_of_le' (le_trans (le_add_left _ _) hFuel)
  have hAllows : net₁.Allows (length ([] : Bytes) + message.length + largest + 2 * netHeaderSize) := by
    rw [Net.Allows, hRead₁.maxPacketSize, h.maxPacketSize_eq, length_nil, zero_add]
    exact ⟨hLarge, hLimit⟩
  obtain ⟨net₂, scan₂, chunks', used, rest, blocks', hPull, hRun, hFinished, hRead₂⟩ :=
    scanPackets_spec zlib message net₁ scan [] left tail blocks nr frameNr chunks fuel hScan hPartial hBytes
      hBlocks (by rw [hRead₁.pktNr]; exact h.pktNr_eq) hAllows (by omega)
  have hRead := hRead₁.trans hRead₂
  obtain ⟨net', hEnd, hMessage, hReader⟩ := endScan_spec hFinished
    (hRead.maxPacketSize.trans h.maxPacketSize_eq)
    (show UInt8.ofNat (frameNr + used) = UInt8.ofNat net₂.pktNr by
      rw [hRead.pktNr, zero_add]; exact ofNat_add_congr h.pktNr_eq used)
  refine ⟨some message.length, net', chunks', used, rest, blocks', hPull, ?_, hMessage, hReader⟩
  rw [myNetReadCompressed, hStart]
  simp only [bind, Except.bind, ← hScan.length_unread, hFuelEq, hRun, hEnd, nil_append]
  rfl

/-- The blocks hold the messages, and nothing is behind an empty last packet when it is
read. -/
def Flow : (messages : List Bytes) → (left : Bytes) → (blocks : List Bytes) → Prop
  | [], _, _ => True
  | message :: messages, left, blocks => ∃ nr rest blocks',
      pull (encode header maxPacketLength nr message).length left blocks =
        (encode header maxPacketLength nr message ++ rest, blocks') ∧
      (Full message → rest = []) ∧ Flow messages rest blocks'

/-- The reader has room for the message and for a compressed packet of the largest size behind it. -/
def Fits (largest maxPacketSize : Nat) (message : Bytes) : Prop :=
  message.length + largest + 2 * netHeaderSize < maxPacketSize ∧
    message.length + largest + 2 * netHeaderSize ≤ 2 ^ 32 - ioSize

theorem readMessages_compressed {zlib : Zlib} (messages : List Bytes)
    (hFits : ∀ message ∈ messages, Fits largest maxPacketSize message) :
    ∀ (net : Net) (frameNr : Nat) (left : Bytes) (blocks : List Bytes) (chunks : List Nat),
      CompressedReader net maxPacketSize frameNr left → BlocksOk largest blocks → Flow messages left blocks →
      readMessages zlib messages.length net ⟨frames zlib frameNr blocks, chunks⟩ =
        .ok (messages.map some) := by
  induction messages with
  | nil => exact fun _ _ _ _ _ _ _ _ => rfl
  | cons message messages ih =>
    intro net frameNr left blocks chunks hReader hBlocks ⟨nr, rest, blocks₁, hPull, hFull, hFlow⟩
    have hAll := pull_flatten (encode header maxPacketLength nr message).length left blocks
    have hSuffix := pull_suffix (encode header maxPacketLength nr message).length left blocks
    rw [hPull] at hAll hSuffix
    rw [append_assoc] at hAll
    obtain ⟨hLarge, hLimit⟩ := hFits message mem_cons_self
    obtain ⟨len, net', chunks', used, rest', blocks', hPull', hRead, hMessage, hReader'⟩ :=
      myNetReadCompressed_spec zlib hReader chunks hAll.symm hBlocks hLarge hLimit
    rw [hPull] at hPull'
    obtain ⟨hRest, rfl⟩ := Prod.mk.inj hPull'
    obtain rfl := append_cancel_left hRest
    have hRestored : restored message rest = rest := by
      rw [restored]
      split
      · rename_i hIs
        rw [hFull hIs]
        rfl
      · rfl
    rw [hRestored] at hReader'
    have hRest := ih (fun m hm => hFits m (mem_cons_of_mem _ hm)) net' _ rest blocks₁
      chunks' hReader' (fun b hb => hBlocks b (hSuffix.subset hb)) hFlow
    rw [length_cons, readMessages, myNetRead, hReader.compress, if_pos rfl, hRead]
    simp only [bind, Except.bind, hRest, hMessage]
    rfl

def LastFull : List Bytes → Prop
  | [] => True
  | message :: messages => (Full message → messages = []) ∧ LastFull messages

/-- The messages between two flushes. -/
theorem flow_append {messages' : List Bytes} {blocks' : List Bytes} (h : Flow messages' [] blocks')
    (messages : List Bytes) (hLast : LastFull messages) :
    ∀ (nr : Nat) (left : Bytes) (blocks : List Bytes), (∀ block ∈ blocks, block ≠ []) →
      left ++ blocks.flatten = encodeAll header maxPacketLength nr messages →
      Flow (messages ++ messages') left (blocks ++ blocks') := by
  induction messages with
  | nil =>
    intro nr left blocks hBlocks hBytes
    obtain ⟨rfl, hFlatten⟩ := append_eq_nil_iff.mp hBytes
    have hNone : blocks = [] := eq_nil_iff_forall_not_mem.mpr fun block hMem =>
      hBlocks block hMem (flatten_eq_nil_iff.mp hFlatten block hMem)
    rw [hNone]
    exact h
  | cons message messages ih =>
    intro nr left blocks hBlocks hBytes
    rw [encodeAll] at hBytes
    obtain ⟨rest, hRest, hTail⟩ := pull_target hBytes
    have hSuffix := pull_suffix (encode header maxPacketLength nr message).length left blocks
    have hEnough : (encode header maxPacketLength nr message).length ≤ (left ++ blocks.flatten).length := by
      rw [hBytes, length_append]
      omega
    refine ⟨nr, rest, _, (pull_append_right hEnough blocks').trans (congrArg (·, _) hRest), fun hFull => ?_,
      ih hLast.2 _ rest _ (fun b hb => hBlocks b (hSuffix.subset hb)) hTail⟩
    rw [hLast.1 hFull] at hTail
    exact (append_eq_nil_iff.mp hTail).1

/-- A message that ends with an empty packet is the last one before a flush. -/
def Separated : (full : Bool) → List Send → Prop
  | _, [] => True
  | _, .flush :: sends => Separated false sends
  | full, .write packet :: sends => full = false ∧ Separated (decide (Full packet)) sends
  | full, .command _ _ _ :: sends => full = false ∧ Separated false sends

/-- The messages written since the last flush, and the blocks sent for them. -/
structure Group (largest : Nat) (w : Writer) (nr : Nat) (messages : List Bytes) (blocks : List Bytes) : Prop where
  ok : w.Ok
  limit : w.net.limit ≤ largest
  compress : w.net.compress = true
  bytes : blocks.flatten ++ w.pending = encodeAll header maxPacketLength nr messages
  pktNr : w.net.pktNr = nr + countAll maxPacketLength messages
  blocks_ne : ∀ block ∈ blocks, block ≠ []
  last : LastFull messages

theorem lastFull_append {messages : List Bytes} (h : ∀ message ∈ messages, ¬Full message) (message : Bytes) :
    LastFull (messages ++ [message]) := by
  induction messages with
  | nil => exact ⟨fun _ => rfl, trivial⟩
  | cons first messages ih =>
    exact ⟨fun hFull => absurd hFull (h first mem_cons_self),
      ih fun m hm => h m (mem_cons_of_mem _ hm)⟩

section
variable {zlib : Zlib} {largest : Nat} {w w₁ : Writer} {nr : Nat} {messages blocks : List Bytes}

variable {out : Bytes}

structure Sent (zlib : Zlib) (largest : Nat) (w w₁ : Writer) (out : Bytes) (blocks : List Bytes) : Prop where
  sent : w₁.sent = w.sent ++ out
  small : ∀ block ∈ blocks, block.length ≤ largest
  carries : Carries zlib true w.net.compressPktNr out blocks w₁.net.compressPktNr

theorem Sent.trans {w₂ : Writer} {out' : Bytes} {blocks' : List Bytes} (h : Sent zlib largest w w₁ out blocks)
    (h' : Sent zlib largest w₁ w₂ out' blocks') : Sent zlib largest w w₂ (out ++ out') (blocks ++ blocks') := by
  refine ⟨by rw [h'.sent, h.sent, append_assoc], fun block hMem => ?_, h.carries.append h'.carries⟩
  rcases mem_append.mp hMem with hFront | hBack
  · exact h.small block hFront
  · exact h'.small block hBack

theorem Sent.blocksOk (h : Sent zlib largest w w₁ out blocks) : BlocksOk (min maxPacketLength largest) blocks := by
  intro block hMem
  obtain ⟨hSome, hLength⟩ := h.carries.blocks_ok rfl block hMem
  exact ⟨hSome, hLength, le_min hLength (h.small block hMem)⟩

/-- The bytes of the group go on. -/
theorem Group.wrote (h : Group largest w nr messages blocks) {bytes : Bytes} (hWrote : Wrote zlib w w₁ bytes)
    (hSmall : bytes.length ≤ largest) :
    ∃ out blocks', Sent zlib largest w w₁ out blocks' ∧
      (blocks ++ blocks').flatten ++ w₁.pending = encodeAll header maxPacketLength nr messages ++ bytes ∧
      ∀ block ∈ blocks ++ blocks', block ≠ [] := by
  obtain ⟨out, blocks', hSent, hCarries, hBytes, hLargest⟩ := hWrote.sent
  rw [h.compress] at hCarries
  refine ⟨out, blocks', ⟨hSent, fun block hMem => (hLargest block hMem).trans (max_le h.limit hSmall), hCarries⟩,
    ?_, fun block hMem => ?_⟩
  · rw [flatten_append, append_assoc, ← hBytes, ← append_assoc, h.bytes]
  · rcases mem_append.mp hMem with hFront | hBack
    · exact h.blocks_ne block hFront
    · exact (hCarries.blocks_ok rfl block hBack).1

theorem Group.write (h : Group largest w nr messages blocks) (hNone : ∀ message ∈ messages, ¬Full message)
    {message : Bytes} (hWrote : Wrote zlib w w₁ (encode header maxPacketLength w.net.pktNr message))
    (hNr : w₁.net.pktNr = w.net.pktNr + Framing.count maxPacketLength message)
    (hSmall : (encode header maxPacketLength w.net.pktNr message).length ≤ largest) :
    ∃ out blocks', Sent zlib largest w w₁ out blocks' ∧
      Group largest w₁ nr (messages ++ [message]) (blocks ++ blocks') := by
  obtain ⟨out, blocks', hSent, hBytes, hNe⟩ := h.wrote hWrote hSmall
  refine ⟨out, blocks', hSent, hWrote.ok, hWrote.limit_eq.trans_le h.limit, hWrote.compress.trans h.compress, ?_, ?_, hNe,
    lastFull_append hNone message⟩
  · rw [hBytes, h.pktNr, encodeAll_append, encodeAll, encodeAll, append_nil]
  · rw [hNr, h.pktNr, countAll_append, add_assoc]
    rfl

/-- After a flush a new group starts. -/
theorem Group.none (hOk : w.Ok) (hLimit : w.net.limit ≤ largest) (hCompress : w.net.compress = true) (hPending : w.pending = []) :
    Group largest w w.net.pktNr [] [] :=
  ⟨hOk, hLimit, hCompress, by rw [hPending]; rfl, rfl, by simp, trivial⟩

/-- The calls that follow, and the last flush, send blocks in which all messages flow. -/
def Delivers (zlib : Zlib) (largest : Nat) (w : Writer) (messages blocks : List Bytes) (sends : List Send) : Prop :=
  ∃ w' out blocks', sendAll zlib w sends = .ok w' ∧ Sent zlib largest w (netFlush zlib w') out blocks' ∧
    Flow (messages ++ sends.flatMap Send.messages) [] (blocks ++ blocks')

/-- A call that flushes ends a group. -/
theorem Group.ends (nr : Nat) {send : Send} {sends : List Send} {out : Bytes} {blocks₁ : List Bytes}
    (hRun : send.run zlib w = .ok w₁) (hSent : Sent zlib largest w w₁ out blocks₁)
    (hNe : ∀ block ∈ blocks ++ blocks₁, block ≠ [])
    (hBytes : (blocks ++ blocks₁).flatten =
      encodeAll header maxPacketLength nr (messages ++ send.messages))
    (hLast : LastFull (messages ++ send.messages)) (hRest : Delivers zlib largest w₁ [] [] sends) :
    Delivers zlib largest w messages blocks (send :: sends) := by
  obtain ⟨w', out', blocks', hAll, hSent', hFlow⟩ := hRest
  refine ⟨w', out ++ out', blocks₁ ++ blocks', ?_, hSent.trans hSent', ?_⟩
  · rw [sendAll, foldlM_cons, hRun]
    exact hAll
  · rw [flatMap_cons, ← append_assoc, ← append_assoc]
    exact flow_append hFlow _ hLast nr [] _ hNe hBytes

end

/-- The bytes that are written for a message. -/
def sentLength (message : Bytes) : Nat := message.length + netHeaderSize * Framing.count maxPacketLength message

theorem delivers_of_separated (zlib : Zlib) {largest : Nat} (sends : List Send) (hShort : ∀ send ∈ sends, send.Short)
    (hSmall : ∀ message ∈ sends.flatMap Send.messages, sentLength message ≤ largest) :
    ∀ (full : Bool) (w : Writer) (nr : Nat) (messages blocks : List Bytes), Group largest w nr messages blocks →
      (full = false → ∀ message ∈ messages, ¬Full message) → Separated full sends →
      Delivers zlib largest w messages blocks sends := by
  induction sends with
  | nil =>
    intro full w nr messages blocks hGroup hNone hSeparated
    obtain ⟨hWrote, hPending, -⟩ := netFlush_spec zlib hGroup.ok
    obtain ⟨out, blocks', hSent, hBytes, hNe⟩ := hGroup.wrote hWrote (Nat.zero_le _)
    rw [hPending, append_nil, append_nil] at hBytes
    refine ⟨w, out, blocks', rfl, hSent, ?_⟩
    have hNothing : Flow [] [] [] := trivial
    have hFlow := flow_append hNothing messages hGroup.last nr [] (blocks ++ blocks') hNe hBytes
    rwa [append_nil (blocks ++ blocks')] at hFlow
  | cons send sends ih =>
    intro full w nr messages blocks hGroup hNone hSeparated
    rw [flatMap_cons, forall_mem_append] at hSmall
    have ih := ih (fun s hs => hShort s (mem_cons_of_mem _ hs)) hSmall.2
    cases send with
    | write packet =>
      obtain ⟨rfl, hSeparated⟩ := hSeparated
      obtain ⟨w₁, hRun, hWrote, hNr⟩ := myNetWrite_spec zlib hGroup.ok packet
      obtain ⟨out, blocks₁, hSent, hGroup₁⟩ := hGroup.write (hNone rfl) hWrote hNr
        ((length_encode_message ..).trans_le (hSmall.1 _ (mem_singleton.mpr rfl)))
      obtain ⟨w', out', blocks', hAll, hSent', hFlow⟩ := ih _ w₁ nr _ _ hGroup₁ (fun hFalse m hm => by
        rcases mem_append.mp hm with hFront | hBack
        · exact hNone rfl m hFront
        · rw [mem_singleton.mp hBack]
          exact of_decide_eq_false hFalse) hSeparated
      refine ⟨w', out ++ out', blocks₁ ++ blocks', ?_, hSent.trans hSent', ?_⟩
      · rw [sendAll, foldlM_cons, Send.run, hRun]
        exact hAll
      · rwa [append_assoc, append_assoc] at hFlow
    | command code head packet =>
      obtain ⟨rfl, hSeparated⟩ := hSeparated
      obtain ⟨w₁, hRun, hWrote, hPending, -⟩ := netWriteCommand_spec zlib hGroup.ok code
        (hShort _ mem_cons_self) packet
      obtain ⟨out, blocks₁, hSent, hBytes, hNe⟩ := hGroup.wrote hWrote
        ((length_encode_message ..).trans_le (hSmall.1 _ (mem_singleton.mpr rfl)))
      have hRest := ih false w₁ _ [] []
        (.none hWrote.ok (hWrote.limit_eq.trans_le hGroup.limit) (hWrote.compress.trans hGroup.compress) hPending) (by simp) hSeparated
      rw [hPending, append_nil] at hBytes
      refine Group.ends nr hRun hSent hNe (hBytes.trans ?_) (lastFull_append (hNone rfl) _) hRest
      rw [hGroup.pktNr, encodeAll_append, Send.messages, encodeAll, encodeAll, append_nil]
    | flush =>
      obtain ⟨hWrote, hPending, -⟩ := netFlush_spec zlib hGroup.ok
      obtain ⟨out, blocks₁, hSent, hBytes, hNe⟩ := hGroup.wrote hWrote (Nat.zero_le _)
      have hRest := ih false _ _ [] []
        (.none hWrote.ok (hWrote.limit_eq.trans_le hGroup.limit) (hWrote.compress.trans hGroup.compress) hPending) (by simp) hSeparated
      rw [hPending, append_nil, append_nil] at hBytes
      have hRun : Send.run zlib w .flush = .ok (netFlush zlib w) := rfl
      refine Group.ends nr hRun hSent hNe (hBytes.trans ?_) ?_ hRest
      · rw [Send.messages, append_nil]
      · rw [Send.messages, append_nil]
        exact hGroup.last

theorem compressedReader_init {maxPacket : Nat} (hMax : maxPacket + netHeaderSize + compHeaderSize < 2 ^ 32)
    (buff : Nat → UInt8) (maxPacketSize pktNr : Nat) :
    CompressedReader (myNetInit buff maxPacket maxPacketSize pktNr true) maxPacketSize pktNr [] :=
  ⟨roomy_of_lt rfl hMax, rfl, rfl, rfl, zero_le _, le_refl _, rfl⟩

/-- The largest compressed packet that is sent for these messages: a whole buffer, or what is written for
a message, but at most `MAX_PACKET_LENGTH` bytes. -/
def largestFrame (maxPacket : Nat) (messages : List Bytes) : Nat :=
  min maxPacketLength ((messages.map sentLength).foldr max maxPacket)

theorem le_foldr_max (lengths : List Nat) (start : Nat) :
    start ≤ lengths.foldr max start ∧ ∀ n ∈ lengths, n ≤ lengths.foldr max start := by
  induction lengths with
  | nil => exact ⟨le_refl _, by simp⟩
  | cons m lengths ih =>
    refine ⟨ih.1.trans (le_max_right ..), fun n hn => ?_⟩
    rcases mem_cons.mp hn with rfl | hn
    · exact le_max_left ..
    · exact (ih.2 n hn).trans (le_max_right ..)

/-- With compression, messages that a buffer has room for are read as they were sent, if a
message that ends with an empty packet is flushed before the next one. -/
theorem roundTrip_compressed (zlib : Zlib) (sends : List Send) (hShort : ∀ send ∈ sends, send.Short)
    (hSeparated : Separated false sends) (buff buff' : Nat → UInt8) {maxPacket maxPacket' : Nat}
    (maxPacketSize : Nat) {maxPacketSize' : Nat} (pktNr : Nat) (chunks : List Nat)
    (hFits : ∀ message ∈ sends.flatMap Send.messages,
      Fits (largestFrame maxPacket (sends.flatMap Send.messages)) maxPacketSize' message)
    (hMax : maxPacket + netHeaderSize + compHeaderSize < 2 ^ 32)
    (hMax' : maxPacket' + netHeaderSize + compHeaderSize < 2 ^ 32) :
    RoundTrip zlib true sends buff buff' maxPacket maxPacket' maxPacketSize maxPacketSize' pktNr
      chunks := by
  obtain ⟨hBuffer, hMessages⟩ := le_foldr_max ((sends.flatMap Send.messages).map sentLength) maxPacket
  obtain ⟨w', out, blocks, hAll, hSent, hFlow⟩ := delivers_of_separated zlib sends hShort
    (fun message hMem => hMessages _ (mem_map_of_mem hMem)) false
    ⟨myNetInit buff maxPacket maxPacketSize pktNr true, []⟩ pktNr [] []
    (.none (writer_ok hMax buff maxPacketSize pktNr true) ((Net.limit_le _).trans hBuffer) rfl rfl)
    (by simp) hSeparated
  have hOut := hSent.carries.out_eq
  refine ⟨w', hAll, ?_⟩
  rw [hSent.sent, hOut]
  exact readMessages_compressed _ hFits _ pktNr [] blocks chunks (compressedReader_init hMax' ..)
    hSent.blocksOk hFlow

theorem roundTrip_flushed_messages :
    RoundTrip storeOnly true [.write [1, 2, 3], .write [], .flush, .command 3 [4] [5, 6]] (fun _ => 0)
      (fun _ => 0) 16384 8 1000 16400 255 [1, 2] :=
  roundTrip_compressed storeOnly _ (by simp [Send.Short, maxPacketLength])
    (by simp [Separated, Full, maxPacketLength]) _ _ 1000 255 [1, 2]
    (by simp [Send.messages, Fits, largestFrame, sentLength, Framing.count, maxPacketLength, netHeaderSize, ioSize])
    (by decide) (by decide)

section
variable {zlib : Zlib} {w : Writer} {packet : Bytes}

/-- A packet for which there is room is only copied to the buffer. -/
theorem netWriteBuff_fits (zlib : Zlib) (h : w.Ok) (hFits : w.net.writePos + packet.length ≤ w.net.limit) :
    netWriteBuff zlib w packet = .ok (w.appended packet) := by
  have hSize : w.net.writePos + packet.length ≤ w.net.size :=
    le_trans hFits (le_trans w.net.limit_le h.size)
  rw [netWriteBuff, Net.leftLength_eq, if_neg (by omega), appendBuff, Net.put_ok hSize]
  rfl

/-- A packet that is larger than the buffer is sent at once. -/
theorem netWriteBuff_large (zlib : Zlib) (h : w.Ok) (hCompress : w.net.compress = true)
    (hPos : w.net.writePos ≠ 0) (hLength : packet.length ≤ maxPacketLength)
    (hLarge : w.net.maxPacket + w.net.leftLength < packet.length) {w' : Writer}
    (hWrite : netWriteBuff zlib w packet = .ok w') : w'.net.writePos = 0 := by
  have hSize : w.net.writePos + (packet.take w.net.leftLength).length ≤ w.net.size := by
    have hOk := h.pos
    have hLimit := w.net.limit_le
    have hOkSize := h.size
    rw [length_take, Net.leftLength_eq]
    omega
  have hDrop : (packet.drop w.net.leftLength).length = packet.length - w.net.leftLength := length_drop
  have hOneBlock (w₁ : Writer) : writeBlocks zlib w₁ (packet.drop w.net.leftLength) =
      (w₁, packet.drop w.net.leftLength) := by
    rw [writeBlocks, if_neg (by omega)]
  rw [netWriteBuff, if_pos (by omega), fillBuff, if_pos hPos] at hWrite
  simp only [Net.put_ok hSize, netRealWrite_eq, hCompress, hOneBlock, bind, Except.bind, pure, Except.pure,
    if_true, if_pos (show w.net.maxPacket < (packet.drop w.net.leftLength).length by omega)] at hWrite
  rw [← Except.ok.inj hWrite]

theorem netFlush_sent (zlib : Zlib) (hCompress : w.net.compress = true) (hPos : w.net.writePos ≠ 0) :
    (netFlush zlib w).sent = w.sent ++ frame zlib w.net.compressPktNr w.pending := by
  rw [netFlush, sendBuff, if_pos hPos, netRealWrite_eq]
  simp only [hCompress, if_true]
  rfl

structure Buffered (w w' : Writer) (bytes : Bytes) : Prop where
  ok : w'.Ok
  limit : w'.net.limit = w.net.limit
  compress : w'.net.compress = w.net.compress
  sent : w'.sent = w.sent
  compressPktNr : w'.net.compressPktNr = w.net.compressPktNr
  pktNr : w'.net.pktNr = w.net.pktNr + 1
  pending : w'.pending = w.pending ++ bytes

theorem Writer.length_pending (w : Writer) : w.pending.length = w.net.writePos := length_load ..

def Writer.headed (w : Writer) (length : Nat) : Writer := w.takeNr.2.appended (header length w.net.pktNr)

theorem headed_spec (zlib : Zlib) (h : w.Ok) (length : Nat) (hFits : w.net.writePos + netHeaderSize ≤ w.net.limit) :
    netWriteBuff zlib w.takeNr.2 (header length w.net.pktNr) = .ok (w.headed length) ∧ (w.headed length).Ok ∧
      (w.headed length).net.writePos = w.net.writePos + netHeaderSize := by
  have hPos : (w.headed length).net.writePos = w.net.writePos + netHeaderSize :=
    congrArg (w.net.writePos + ·) (length_header ..)
  have hRoom : (w.headed length).net.writePos ≤ w.net.limit := by omega
  exact ⟨netWriteBuff_fits zlib ⟨h.size, h.pos⟩ hRoom, ⟨h.size, hRoom⟩, hPos⟩

/-- A short message for which there is room is only copied to the buffer. -/
theorem myNetWrite_fits (zlib : Zlib) (h : w.Ok) (hShort : packet.length < maxPacketLength)
    (hFits : w.net.writePos + (netHeaderSize + packet.length) ≤ w.net.limit) :
    ∃ w', myNetWrite zlib w packet = .ok w' ∧
      Buffered w w' (Framing.packet header w.net.pktNr packet) := by
  obtain ⟨hFirst, hOk, hPos⟩ := headed_spec zlib h packet.length (by omega)
  have hSecond := netWriteBuff_fits zlib hOk
    (show (w.headed packet.length).net.writePos + packet.length ≤ w.net.limit by omega)
  refine ⟨(w.headed packet.length).appended packet, ?_,
    ⟨h.size, show (w.headed packet.length).net.writePos + _ ≤ w.net.limit by omega⟩,
    rfl, rfl, rfl, rfl, rfl, ?_⟩
  · rw [myNetWrite, if_neg (by omega)]
    exact (congrArg (· >>= fun w₁ => netWriteBuff zlib w₁ packet) hFirst).trans hSecond
  · rw [Writer.pending_appended, Writer.headed, Writer.pending_appended, Framing.packet, ← append_assoc]
    rfl

/-- A full packet that is larger than the buffer is sent with its header. -/
theorem myNetWrite_full (zlib : Zlib) (h : w.Ok) (hCompress : w.net.compress = true)
    (hEmpty : w.net.writePos = 0) (hFull : packet.length = maxPacketLength)
    (hFits : netHeaderSize ≤ w.net.limit) (hLarge : 2 * w.net.maxPacket < maxPacketLength) :
    ∃ w', myNetWrite zlib w packet = myNetWrite zlib w' [] ∧
      Wrote zlib w w' (Framing.packet header w.net.pktNr packet) ∧ w'.net.writePos = 0 ∧
      w'.net.pktNr = w.net.pktNr + 1 := by
  obtain ⟨w₁, w₂, hFirst, hSecond, hWrote, hNr⟩ := writePacket_spec zlib h packet
  obtain ⟨hHeaded, hOk, hPos⟩ := headed_spec zlib h packet.length (by omega)
  obtain rfl : w₁ = w.headed packet.length := Except.ok.inj (hFirst.symm.trans hHeaded)
  have hLeft : (w.headed packet.length).net.leftLength ≤ w.net.maxPacket := by
    have hLimit : (w.headed packet.length).net.limit ≤ w.net.maxPacket := w.net.limit_le
    rw [Net.leftLength_eq]
    omega
  have hPos₂ := netWriteBuff_large zlib hOk hCompress (by rw [hPos, hEmpty]; decide) (le_of_eq hFull)
    (show w.net.maxPacket + _ < _ by omega) hSecond
  refine ⟨w₂, ?_, hWrote, hPos₂, hNr⟩
  rw [myNetWrite, if_pos (le_of_eq hFull.symm)]
  rw [hFull] at hFirst hSecond
  rw [take_of_length_le (le_of_eq hFull), drop_of_length_le (le_of_eq hFull)]
  simp only [bind, Except.bind]
  rw [hFirst]
  simp only [hSecond]

end

/-- The header of the empty packet and the next message are in one block. -/
theorem sendAll_full (hFull : message.length = maxPacketLength) :
    ∃ w blocks, sendAll storeOnly ⟨myNetInit (fun _ => 0) 16 1000 0 true, []⟩
        [.write message, .write [7]] = .ok w ∧
      (netFlush storeOnly w).sent =
        frames storeOnly 0 (blocks ++ [packet header 1 [] ++ packet header 2 [7]]) ∧
      BlocksOk maxPacketLength blocks ∧ blocks.flatten = packet header 0 message := by
  have hOk := writer_ok (show 16 + netHeaderSize + compHeaderSize < 2 ^ 32 by decide) (fun _ => 0) 1000 0 true
  obtain ⟨w₁, hRun₁, hWrote, hPos, hNr⟩ := myNetWrite_full storeOnly hOk rfl rfl hFull (by decide) (by decide)
  obtain ⟨out, blocks, hSent, hCarries, hBytes, -⟩ := hWrote.sent
  have hPending : w₁.pending = [] := by rw [Writer.pending, hPos, load_zero]
  have hLimit : w₁.net.limit = 16 := by
    rw [Net.limit, hWrote.compress, hWrote.maxPacket]
    rfl
  obtain ⟨w₂, hRun₂, hBuffered₂⟩ := myNetWrite_fits storeOnly hWrote.ok
    (show length ([] : Bytes) < maxPacketLength by decide) (by rw [hLimit, hPos]; decide)
  have hPos₂ : w₂.net.writePos = 4 := by
    rw [← Writer.length_pending, hBuffered₂.pending, hPending]
    rfl
  obtain ⟨w₃, hRun₃, hBuffered₃⟩ := myNetWrite_fits storeOnly hBuffered₂.ok
    (show length ([7] : Bytes) < maxPacketLength by decide)
    (by rw [hBuffered₂.limit, hLimit, hPos₂]; decide)
  have hPos₃ : w₃.net.writePos ≠ 0 := by
    rw [← Writer.length_pending, hBuffered₃.pending, hBuffered₂.pending, hPending]
    exact succ_ne_zero _
  have hBlocks : BlocksOk maxPacketLength blocks := by
    intro block hMem
    obtain ⟨hSome, hLength⟩ := hCarries.blocks_ok rfl block hMem
    exact ⟨hSome, hLength, hLength⟩
  refine ⟨w₃, blocks, ?_, ?_, hBlocks, ?_⟩
  · rw [sendAll, foldlM_cons, Send.run, hRun₁, hRun₂]
    exact (congrArg (· >>= fun w => pure w) hRun₃)
  · have hOut := hCarries.out_eq
    have hCount := hCarries.nr_eq
    rw [netFlush_sent storeOnly (by rw [hBuffered₃.compress, hBuffered₂.compress, hWrote.compress]; rfl) hPos₃,
      hBuffered₃.sent, hBuffered₂.sent, hBuffered₃.compressPktNr, hBuffered₂.compressPktNr,
      hBuffered₃.pending, hBuffered₂.pending, hPending, hBuffered₂.pktNr, hNr, hSent, hOut, hCount, frames_append]
    simp [frames, myNetInit]
  · rw [hPending, append_nil] at hBytes
    exact hBytes.symm

/-- The last block is pulled when its first bytes are needed. -/
theorem pull_last_block {target rest last : Bytes} (h : blocks.flatten ++ last = target ++ rest)
    (hNeeded : rest.length < last.length) :
    pull target.length [] (blocks ++ [last]) = (target ++ rest, []) := by
  have hBytes : [] ++ (blocks ++ [last]).flatten = target ++ rest := by
    rw [flatten_append, flatten_singleton, nil_append, h]
  obtain ⟨rest', hRest, hTail⟩ := pull_target hBytes
  obtain ⟨front, hFront⟩ := pull_suffix target.length [] (blocks ++ [last])
  rcases eq_nil_or_concat (pull target.length [] (blocks ++ [last])).2 with hNone | ⟨back, block, hBack⟩
  · rw [hNone, flatten_nil, append_nil] at hTail
    rw [hTail] at hRest
    exact Prod.ext hRest hNone
  · rw [hBack, concat_eq_append, ← append_assoc] at hFront
    obtain rfl := (append_inj' hFront rfl).2 |> singleton_inj.mp
    have hLength := congrArg length hTail
    rw [hBack, concat_eq_append, flatten_append, flatten_singleton, length_append,
      length_append] at hLength
    omega

/-- The first byte of the header behind an empty packet is lost, and the second message is
read as an empty one. -/
theorem not_roundTrip_compressed : ¬ ∀ message : Bytes, Fits maxPacketLength (2 ^ 30) message →
      RoundTrip storeOnly true [.write message, .write [7]] (fun _ => 0) (fun _ => 0) 16 16384 1000 (2 ^ 30)
        0 [] := by
  intro h
  obtain ⟨message, hLength⟩ : ∃ message : Bytes, message.length = maxPacketLength :=
    ⟨replicate maxPacketLength 0, length_replicate⟩
  have hFits : Fits maxPacketLength (2 ^ 30) message := by
    rw [Fits, hLength]
    decide
  have hFull : Full message := by
    refine ⟨fun hNil => ?_, dvd_of_mod_eq_zero (by rw [hLength, mod_self])⟩
    rw [hNil, length_nil] at hLength
    exact absurd hLength (Nat.ne_of_lt maxPacketLength_pos)
  have hEncode : encode header maxPacketLength 0 message = packet header 0 message ++ packet header 1 [] := by
    rw [encode_of_le _ maxPacketLength_pos (le_of_eq hLength.symm),
      take_of_length_le (le_of_eq hLength), drop_of_length_le (le_of_eq hLength),
      encode_of_lt _ maxPacketLength_pos]
  obtain ⟨w, hSend, hRead⟩ := h message hFits
  obtain ⟨w', blocks, hSend', hSent, hBlocks, hFlatten⟩ := sendAll_full hLength
  obtain rfl := Except.ok.inj (hSend.symm.trans hSend')
  rw [hSent] at hRead
  have hStream : blocks.flatten ++ (packet header 1 [] ++ packet header 2 [7]) =
      encode header maxPacketLength 0 message ++ packet header 2 [7] := by
    rw [hFlatten, hEncode, append_assoc]
  have hPull := pull_last_block hStream (by decide)
  have hBytes : [] ++ (blocks ++ [packet header 1 [] ++ packet header 2 [7]]).flatten =
      encode header maxPacketLength 0 message ++ packet header 2 [7] := by
    rw [flatten_append, flatten_singleton, nil_append, hStream]
  have hAllOk : BlocksOk maxPacketLength (blocks ++ [packet header 1 [] ++ packet header 2 [7]]) := by
    intro block hMem
    rcases mem_append.mp hMem with hFront | hBack
    · exact hBlocks block hFront
    · rw [mem_singleton.mp hBack]
      exact ⟨by decide, by decide, by decide⟩
  obtain ⟨len₁, net₁, chunks₁, used₁, rest₁, blocks₁, hPull₁, hRead₁, hMessage₁, hReader₁⟩ :=
    myNetReadCompressed_spec storeOnly
      (compressedReader_init (show 16384 + netHeaderSize + compHeaderSize < 2 ^ 32 by decide) (fun _ => 0)
        (2 ^ 30) 0) [] hBytes hAllOk hFits.1 hFits.2
  rw [hPull] at hPull₁
  obtain ⟨hRest, rfl⟩ := Prod.mk.inj hPull₁
  obtain rfl := append_cancel_left hRest
  have hLeft : restored message (packet header 2 [7]) =
      encode header maxPacketLength 2 [] ++ [7] := by
    rw [restored, if_pos hFull, encode_of_lt _ maxPacketLength_pos]
    rfl
  rw [hLeft] at hReader₁
  have hBytes₂ : encode header maxPacketLength 2 [] ++ [7] ++ ([] : List Bytes).flatten =
      encode header maxPacketLength 2 [] ++ [7] := append_nil _
  have hNone : BlocksOk 0 [] := by simp [BlocksOk]
  obtain ⟨len₂, net₂, chunks₂, used₂, rest₂, blocks₂, -, hRead₂, hMessage₂, -⟩ :=
    myNetReadCompressed_spec storeOnly hReader₁ chunks₁ hBytes₂ hNone (by decide) (by decide)
  have hTwo : [Send.write message, Send.write [7]].flatMap Send.messages = [message, [7]] := rfl
  have hNet : (myNetInit (fun _ => 0) 16384 (2 ^ 30) 0 true).compress = true := rfl
  have hNet₁ := hReader₁.compress
  rw [hTwo, length_cons, length_singleton, readMessages, myNetRead, if_pos hNet, hRead₁] at hRead
  simp only [bind, Except.bind, readMessages, myNetRead, if_pos hNet₁, hRead₂, hMessage₁, hMessage₂] at hRead
  simp [pure, Except.pure] at hRead

end MySQL.NetServ
