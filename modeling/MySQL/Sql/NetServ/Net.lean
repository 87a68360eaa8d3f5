import MySQL.Library.Bytes

/-! Logical packets over a connection: sql/net_serv.cc as the client library has it
(`NO_ALARM`). There is memory, reads and writes of the connection do not fail, and a
pointer into `net->buff` is its offset. -/
namespace MySQL.NetServ

open Library

abbrev Bytes := List UInt8

def netHeaderSize : Nat := 4
def compHeaderSize : Nat := 3
def maxPacketLength : Nat := 256 * 256 * 256 - 1
def ioSize : Nat := 4096
def minCompressLength : Nat := 50

theorem maxPacketLength_pos : 0 < maxPacketLength := by decide

theorem maxPacketLength_lt : maxPacketLength < 256 ^ 3 := by decide

/-- Three bytes, the lowest first. -/
def int3store (n : Nat) : Bytes := lowBytes 3 n

def uint3korr (buff : Nat → UInt8) (pos : Nat) : Nat := ofLowBytes (load buff pos 3)

/-- `NET`. `size` is how many bytes `buff` points to, `maxPacket` is the offset of
`buff_end`. -/
structure Net where
  buff : Nat → UInt8
  size : Nat
  maxPacket : Nat
  maxPacketSize : Nat
  writePos : Nat
  readPos : Nat
  pktNr : Nat
  compressPktNr : Nat
  compress : Bool
  whereB : Nat
  remainInBuf : Nat
  bufLength : Nat
  saveChar : UInt8

/-- Why a call does not return: it waits for bytes, or it writes outside of the buffer. -/
inductive Fault where
  | blocked
  | overrun
  deriving DecidableEq

/-- The size of the buffer, which is computed in 32 bits. -/
def allocated (maxPacket : Nat) : Nat := (maxPacket + netHeaderSize + compHeaderSize) % 2 ^ 32

def myNetInit (buff : Nat → UInt8) (maxPacket maxPacketSize pktNr : Nat) (compress : Bool) : Net :=
  { buff, size := allocated maxPacket, maxPacket, maxPacketSize, writePos := 0, readPos := 0,
    pktNr, compressPktNr := pktNr, compress, whereB := 0, remainInBuf := 0, bufLength := 0, saveChar := 0 }

/-- A write outside of the buffer is a fault of the model. -/
def Net.put (net : Net) (pos : Nat) (bytes : Bytes) : Except Fault Net :=
  if bytes = [] ∨ pos + bytes.length ≤ net.size then .ok { net with buff := store net.buff pos bytes }
  else .error .overrun

/-- Realloc the packet buffer; the answer `true` reports a packet that is too large. -/
def netRealloc (net : Net) (length : Nat) : Bool × Net :=
  if net.maxPacketSize ≤ length then (true, net)
  else
    let pktLength := (length + ioSize - 1) / ioSize * ioSize
    (false, { net with size := allocated pktLength, maxPacket := pktLength, writePos := 0 })

/-- What compression of a buffer gives, and how it is undone. A compressed buffer is never
empty. -/
structure Zlib where
  compress : Bytes → Bytes
  uncompress : Bytes → (length : Nat) → Option Bytes
  compress_ne_nil : ∀ packet, compress packet ≠ []
  uncompress_compress : ∀ packet, uncompress (compress packet) packet.length = some packet

/-- The packet to send, and its length before compression, or 0. -/
def myCompress (zlib : Zlib) (packet : Bytes) : Bytes × Nat :=
  if packet.length < minCompressLength then (packet, 0)
  else
    let compbuf := zlib.compress packet
    if packet.length ≤ compbuf.length then (packet, 0) else (compbuf, packet.length)

/-- A length of 0 says that the packet was sent as it is. -/
def myUncompress (zlib : Zlib) (packet : Bytes) (complen : Nat) : Option Bytes :=
  if complen ≠ 0 then zlib.uncompress packet complen else some packet

/-- The writing side, with what it has sent. -/
structure Writer where
  net : Net
  sent : Bytes

section
variable (zlib : Zlib)

/-- One block goes out, with compression as one compressed packet. -/
def netRealWrite (w : Writer) (packet : Bytes) : Writer :=
  if w.net.compress then
    let (data, complen) := myCompress zlib packet
    { net := { w.net with compressPktNr := w.net.compressPktNr + 1 }
      sent := w.sent ++ (int3store data.length ++ [UInt8.ofNat w.net.compressPktNr] ++
        int3store complen ++ data) }
  else { w with sent := w.sent ++ packet }

/-- Send the first blocks of a packet that is too long for one compressed packet. -/
def writeBlocks (w : Writer) (packet : Bytes) : Writer × Bytes :=
  if maxPacketLength < packet.length then
    writeBlocks (netRealWrite zlib w (packet.take maxPacketLength)) (packet.drop maxPacketLength)
  else (w, packet)
termination_by packet.length
decreasing_by
  have hPos := maxPacketLength_pos
  rw [List.length_drop]
  omega

/-- The bytes that still go into the buffer. A compressed packet has at most `MAX_PACKET_LENGTH`. -/
def Net.leftLength (net : Net) : Nat :=
  if net.compress ∧ maxPacketLength < net.maxPacket then maxPacketLength - net.writePos
  else net.maxPacket - net.writePos

def appendBuff (w : Writer) (packet : Bytes) : Except Fault Writer := do
  let net ← w.net.put w.net.writePos packet
  return { w with net := { net with writePos := net.writePos + packet.length } }

/-- A buffer that is partly filled is filled up and sent first. -/
def fillBuff (w : Writer) (packet : Bytes) : Except Fault (Writer × Bytes) :=
  if w.net.writePos ≠ 0 then do
    let left := w.net.leftLength
    let net ← w.net.put w.net.writePos (packet.take left)
    let w := netRealWrite zlib { w with net } (load net.buff 0 (net.writePos + left))
    return ({ w with net := { w.net with writePos := 0 } }, packet.drop left)
  else return (w, packet)

/-- What does not fit goes out at once; a rest that fits into the buffer waits there. -/
def netWriteBuff (w : Writer) (packet : Bytes) : Except Fault Writer :=
  if w.net.leftLength < packet.length then do
    let (w, packet) ← fillBuff zlib w packet
    let (w, packet) := if w.net.compress then writeBlocks zlib w packet else (w, packet)
    if w.net.maxPacket < packet.length then return netRealWrite zlib w packet
    appendBuff w packet
  else appendBuff w packet

def sendBuff (w : Writer) : Writer :=
  if w.net.writePos ≠ 0 then
    let w := netRealWrite zlib w (load w.net.buff 0 w.net.writePos)
    { w with net := { w.net with writePos := 0 } }
  else w

/-- With compression the numbers of the two layers are brought together. -/
def netFlush (w : Writer) : Writer :=
  let w := sendBuff zlib w
  -- Sync packet number if using compression
  if w.net.compress then { w with net := { w.net with pktNr := w.net.compressPktNr } } else w

def Writer.takeNr (w : Writer) : UInt8 × Writer :=
  (UInt8.ofNat w.net.pktNr, { w with net := { w.net with pktNr := w.net.pktNr + 1 } })

/-- A message is cut into packets of `MAX_PACKET_LENGTH` bytes and a shorter last one. -/
def myNetWrite (w : Writer) (packet : Bytes) : Except Fault Writer :=
  if maxPacketLength ≤ packet.length then do
    let (nr, w) := w.takeNr
    let w ← netWriteBuff zlib w (int3store maxPacketLength ++ [nr])
    let w ← netWriteBuff zlib w (packet.take maxPacketLength)
    myNetWrite w (packet.drop maxPacketLength)
  else do
    let (nr, w) := w.takeNr
    let w ← netWriteBuff zlib w (int3store packet.length ++ [nr])
    netWriteBuff zlib w packet
termination_by packet.length
decreasing_by
  have hPos := maxPacketLength_pos
  rw [List.length_drop]
  omega

/-- The loop of `net_write_command` after its first packet; `length` is the length of what
is left of `packet`. -/
def writeFull (w : Writer) (packet : Bytes) : Except Fault (Writer × Bytes) :=
  if maxPacketLength ≤ packet.length then do
    let (nr, w) := w.takeNr
    let w ← netWriteBuff zlib w (int3store maxPacketLength ++ [nr])
    let w ← netWriteBuff zlib w []  -- the header, of which nothing is left
    let w ← netWriteBuff zlib w (packet.take maxPacketLength)
    writeFull w (packet.drop maxPacketLength)
  else return (w, packet)
termination_by packet.length
decreasing_by
  have hPos := maxPacketLength_pos
  rw [List.length_drop]
  omega

def writeHeader (w : Writer) (header : Bytes) : Except Fault Writer :=
  if header.length ≠ 0 then netWriteBuff zlib w header else pure w

/-- The command byte and the header are the start of the first packet. -/
def netWriteCommand (w : Writer) (command : UInt8) (header packet : Bytes) : Except Fault Writer := do
  let length := packet.length + 1 + header.length
  if maxPacketLength ≤ length then
    -- take into account that we have the command in the first header
    let len := maxPacketLength - 1 - header.length
    let (nr, w) := w.takeNr
    let w ← netWriteBuff zlib w (int3store maxPacketLength ++ [nr] ++ [command])
    let w ← netWriteBuff zlib w header
    let w ← netWriteBuff zlib w (packet.take len)
    let (w, packet) ← writeFull zlib w (packet.drop len)
    let (nr, w) := w.takeNr
    let w ← netWriteBuff zlib w (int3store packet.length ++ [nr])
    let w ← netWriteBuff zlib w packet
    return netFlush zlib w
  else
    let (nr, w) := w.takeNr
    let w ← netWriteBuff zlib w (int3store length ++ [nr] ++ [command])
    let w ← writeHeader zlib w header
    let w ← netWriteBuff zlib w packet
    return netFlush zlib w

end

/-- The other end of a connection: the bytes to come, and how many of them each read gets;
after that a read gets what it asks for. -/
structure Vio where
  wire : Bytes
  chunks : List Nat

/-- A read returns some of the bytes on the wire, as many as the next chunk says. -/
def vioRead (vio : Vio) (remain : Nat) : Except Fault (Bytes × Vio) :=
  if vio.wire = [] then .error .blocked
  else
    let n := min remain (max 1 (vio.chunks.headD remain))
    .ok (vio.wire.take n, ⟨vio.wire.drop n, vio.chunks.tail⟩)

/-- The loop of `my_real_read` until all bytes of a part are there. -/
def readBytes : (fuel : Nat) → Net → Vio → (pos remain : Nat) → Except Fault (Net × Vio)
  | 0, _, _, _, _ => .error .blocked
  | fuel + 1, net, vio, pos, remain =>
    if remain = 0 then .ok (net, vio)
    else do
      let (bytes, vio) ← vioRead vio remain
      let net ← net.put pos bytes
      readBytes fuel net vio (pos + bytes.length) (remain - bytes.length)

/-- Make room for `length` bytes; the answer `true` reports a packet that is too large. -/
def Net.room (net : Net) (length : Nat) : Bool × Net :=
  if net.maxPacket ≤ length then netRealloc net length else (false, net)

/-- The second part of `my_real_read`: the data of a packet. The answer none is
`packet_error`. -/
def readData (net : Net) (vio : Vio) (len complen : Nat) : Except Fault (Option Nat × Net × Vio) :=
  if len = 0 then return (some 0, net, vio)  -- end of big multi-packet
  else
    match net.room (max len complen + net.whereB) with
    | (true, net) => return (none, net, vio)
    | (false, net) => do
      let (net, vio) ← readBytes (len + 1) net vio net.whereB len
      return (some len, net, vio)

/-- The length of the packet, or none for `packet_error`, and `complen`. -/
def myRealRead (net : Net) (vio : Vio) : Except Fault ((Option Nat × Nat) × Net × Vio) := do
  let headerSize := if net.compress then netHeaderSize + compHeaderSize else netHeaderSize
  let (net, vio) ← readBytes (headerSize + 1) net vio net.whereB headerSize
  if net.buff (net.whereB + 3) ≠ UInt8.ofNat net.pktNr then
    return ((none, 0), net, vio)  -- packets out of order
  let net := { net with pktNr := net.pktNr + 1, compressPktNr := net.pktNr + 1 }
  let complen := if net.compress then uint3korr net.buff (net.whereB + netHeaderSize) else 0
  let (len, net, vio) ← readData net vio (uint3korr net.buff net.whereB) complen
  return ((len, complen), net, vio)

/-- Read packets, each one behind the one before, up to one that is not full. -/
def readPackets : (fuel : Nat) → Net → Vio → (totalLength : Nat) →
    Except Fault (Option Nat × Net × Vio)
  | 0, _, _, _ => .error .blocked
  | fuel + 1, net, vio, totalLength => do
    let ((len, _), net, vio) ← myRealRead net vio
    if len = some maxPacketLength then
      readPackets fuel { net with whereB := net.whereB + maxPacketLength } vio
        (totalLength + maxPacketLength)
    else return (len.map (· + totalLength), net, vio)

/-- Packets of full length are joined with those behind them. -/
def myNetReadPlain (net : Net) (vio : Vio) : Except Fault (Option Nat × Net × Vio) := do
  let savePos := net.whereB
  let (len, net, vio) ← readPackets (vio.wire.length + 1) net vio 0
  let net := { net with whereB := savePos, readPos := savePos }
  match len with
  | none => return (none, net, vio)
  | some n =>
    let net ← net.put (net.readPos + n) [0]  -- safeguard for mysql_use_result
    return (some n, net, vio)

/-- The variables of the loop of `my_net_read` over compressed packets. -/
structure Scan where
  bufLength : Nat
  startOfPacket : Nat
  firstPacketOffset : Nat
  multiBytePacket : Nat

/-- What was read of the message is moved to the start of the buffer before the next read. -/
def moveDown (net : Net) (scan : Scan) : Except Fault (Net × Scan) :=
  if scan.firstPacketOffset ≠ 0 then do
    let net ← net.put 0 (load net.buff scan.firstPacketOffset (scan.bufLength - scan.firstPacketOffset))
    return (net, { scan with
      bufLength := scan.bufLength - scan.firstPacketOffset
      startOfPacket := scan.startOfPacket - scan.firstPacketOffset
      firstPacketOffset := 0 })
  else return (net, scan)

/-- A later packet of a message is moved over its own header. -/
def takePacket (net : Net) (scan : Scan) (readLength : Nat) : Except Fault (Net × Scan) :=
  if scan.multiBytePacket ≠ 0 then do
    let pos := scan.firstPacketOffset + scan.startOfPacket
    let net ← net.put pos
      (load net.buff (pos + netHeaderSize) (scan.bufLength - scan.startOfPacket))
    return (net, { scan with
      startOfPacket := scan.startOfPacket + readLength
      bufLength := scan.bufLength - netHeaderSize })
  else return (net, { scan with startOfPacket := scan.startOfPacket + readLength + netHeaderSize })

/-- The loop of `my_net_read` with compression, up to the end of a message. The answer
none is `packet_error`. -/
def scanPackets (zlib : Zlib) : (fuel : Nat) → Net → Vio → Scan →
    Except Fault (Option Scan × Net × Vio)
  | 0, _, _, _ => .error .blocked
  | fuel + 1, net, vio, scan => do
    let readLength := uint3korr net.buff scan.startOfPacket
    if netHeaderSize ≤ scan.bufLength - scan.startOfPacket ∧ readLength = 0 then
      -- end of multi-byte packet
      return (some { scan with startOfPacket := scan.startOfPacket + netHeaderSize }, net, vio)
    else if netHeaderSize ≤ scan.bufLength - scan.startOfPacket ∧
        readLength + netHeaderSize ≤ scan.bufLength - scan.startOfPacket then
      let (net, scan) ← takePacket net scan readLength
      if readLength ≠ maxPacketLength then
        return (some { scan with multiBytePacket := 0 }, net, vio)
      let (net, scan) ← moveDown net { scan with multiBytePacket := netHeaderSize }
      scanPackets zlib fuel net vio scan
    else
      let (net, scan) ← moveDown net scan
      let ((packetLen, complen), net, vio) ← myRealRead { net with whereB := scan.bufLength } vio
      match packetLen with
      | none => return (none, net, vio)
      | some packetLen =>
        match myUncompress zlib (load net.buff net.whereB packetLen) complen with
        | none => return (none, net, vio)
        | some packet =>
          let net ← net.put net.whereB packet
          scanPackets zlib fuel net vio
            { scan with bufLength := scan.bufLength + packet.length }

/-- The start of `my_net_read` with compression: restore the character that was
overwritten by the end 0. -/
def startScan (net : Net) : Except Fault (Net × Scan) :=
  if net.remainInBuf ≠ 0 then do
    let start := net.bufLength - net.remainInBuf
    let net ← net.put start [net.saveChar]
    return (net, ⟨net.bufLength, start, start, 0⟩)
  else return (net, ⟨0, 0, 0, 0⟩)

/-- The end of `my_net_read` with compression: save the character behind the message. -/
def endScan (net : Net) (scan : Scan) : Except Fault (Nat × Net) := do
  let readPos := scan.firstPacketOffset + netHeaderSize
  let len := scan.startOfPacket - scan.firstPacketOffset - netHeaderSize - scan.multiBytePacket
  let net := { net with
    readPos, bufLength := scan.bufLength, remainInBuf := scan.bufLength - scan.startOfPacket
    saveChar := net.buff (readPos + len) }
  let net ← net.put (readPos + len) [0]
  return (len, net)

def myNetReadCompressed (zlib : Zlib) (net : Net) (vio : Vio) :
    Except Fault (Option Nat × Net × Vio) := do
  let (net, scan) ← startScan net
  let fuel := 2 * vio.wire.length + (scan.bufLength - scan.startOfPacket) / maxPacketLength + 1
  let (scan, net, vio) ← scanPackets zlib fuel net vio scan
  match scan with
  | none => return (none, net, vio)
  | some scan =>
    let (len, net) ← endScan net scan
    return (some len, net, vio)

def myNetRead (zlib : Zlib) (net : Net) (vio : Vio) : Except Fault (Option Nat × Net × Vio) :=
  if net.compress then myNetReadCompressed zlib net vio else myNetReadPlain net vio

end MySQL.NetServ
