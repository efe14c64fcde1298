import NachOS.Lib.Words
import NachOS.Threads.Kernel

/-!
# Packets and mail

`Network` (`network.cc`) puts packets of `MaxWireSize` bytes into the UNIX socket of another
machine and polls its own socket; it has room for one packet that has arrived. `PostOffice::Send`
(`post.cc`) puts a header of its own before the data of a message. Both headers are three words,
`to`, `from` and `length`.

The socket is a queue of datagrams that loses nothing. What `new` finds in the memory of a buffer
is part of the message; `sendBusy` is left out, since nothing sets it.
-/

namespace NachOS

/-- `PacketHeader` and `MailHeader`. -/
structure Header where
  toAddr : BitVec 32
  fromAddr : BitVec 32
  length : BitVec 32
deriving DecidableEq, Repr

abbrev PacketHeader := Header

abbrev MailHeader := Header

/-- `sizeof(PacketHeader)`, and `sizeof(MailHeader)`. -/
def sizeofHeader : ℕ := 12

def maxWireSize : ℕ := 64

def maxPacketSize : ℕ := maxWireSize - sizeofHeader

def maxMailSize : ℕ := maxPacketSize - sizeofHeader

end NachOS

namespace Bytes

open NachOS

/-- The header at the start of a buffer. -/
def header (m : Bytes) : Header :=
  ⟨BitVec.ofInt 32 (m.int 0), BitVec.ofInt 32 (m.int 4), BitVec.ofInt 32 (m.int 8)⟩

/-- Store a header at the start of a buffer. -/
def setHeader (m : Bytes) (h : Header) : Bytes :=
  ((m.setInt 0 h.toAddr.toInt).setInt 4 h.fromAddr.toInt).setInt 8 h.length.toInt

/-- A stored `int` is read back as it was. -/
theorem int_setInt_toInt (m : Bytes) (addr : ℕ) (v : BitVec 32) :
    (m.setInt addr v.toInt).int addr = v.toInt := by
  have hmin := BitVec.le_toInt v
  have hmax := BitVec.toInt_lt (x := v)
  exact int_setInt_self m addr (by simpa using hmin) (by simpa using hmax)

/-- So is a stored header. -/
@[simp] theorem header_setHeader (m : Bytes) (h : Header) : (m.setHeader h).header = h := by
  have hto : (m.setHeader h).int 0 = h.toAddr.toInt := by
    rw [setHeader, int_setInt_of_disjoint _ _ (.inl (by omega)),
      int_setInt_of_disjoint _ _ (.inl (by omega)), int_setInt_toInt]
  have hfrom : (m.setHeader h).int 4 = h.fromAddr.toInt := by
    rw [setHeader, int_setInt_of_disjoint _ _ (.inl (by omega)), int_setInt_toInt]
  have hlength : (m.setHeader h).int 8 = h.length.toInt := by rw [setHeader, int_setInt_toInt]
  rw [header, hto, hfrom, hlength, BitVec.ofInt_toInt, BitVec.ofInt_toInt, BitVec.ofInt_toInt]

/-- A header depends on its own bytes only. -/
theorem header_congr {m m' : Bytes} {n : ℕ} (hn : sizeofHeader ≤ n) (h : EqUpTo n m m') :
    m.header = m'.header := by
  have hint : ∀ addr, addr + 4 ≤ sizeofHeader → m.int addr = m'.int addr := by
    intro addr haddr
    exact int_congr fun k hk => h _ (by omega)
  unfold header
  rw [hint 0 (by decide), hint 4 (by decide), hint 8 (by decide)]

/-- The block copied to the start of a buffer. -/
theorem blit_start (m src : Bytes) (n : ℕ) : EqUpTo n (m.blit 0 n src) src := by
  intro k hk
  rw [blit_of_mem (Nat.zero_le k) (by omega), Nat.sub_zero]

/-- A buffer with a header, and data behind it. -/
def packet (m : Bytes) (h : Header) (n : ℕ) (data : Bytes) : Bytes :=
  (m.setHeader h).blit sizeofHeader n data

/-- What `Send` put in front of the data is read back as the header. -/
theorem header_packet (m : Bytes) (h : Header) (n : ℕ) (data : Bytes) :
    (m.packet h n data).header = h := by
  have heq : EqUpTo sizeofHeader (m.packet h n data) (m.setHeader h) := fun k hk => blit_of_lt hk
  rw [header_congr (Nat.le_refl _) heq, header_setHeader]

/-- And what it put behind the header as the data. -/
theorem window_packet (m : Bytes) (h : Header) (n : ℕ) (data : Bytes) :
    EqUpTo n ((m.packet h n data).window sizeofHeader) data :=
  window_blit_self (m.setHeader h) data sizeofHeader n

end Bytes

namespace NachOS

/-! ## Sending -/

/-- A call of `PostOffice::Send` on some machine, and what it finds in its buffers. -/
structure Message where
  /-- Of the machine that sends the message. -/
  netAddr : BitVec 32
  numBoxes : ℕ
  pktHdr : PacketHeader
  mailHdr : MailHeader
  data : Bytes
  postBuffer : Bytes
  wireBuffer : Bytes

/-- The header names a mailbox of a post office with so many. -/
def Header.Valid (h : Header) (numBoxes : ℕ) : Prop :=
  0 ≤ h.toAddr.toInt ∧ h.toAddr.toInt < numBoxes

instance (h : Header) (numBoxes : ℕ) : Decidable (h.Valid numBoxes) :=
  inferInstanceAs (Decidable (_ ∧ _))

/-- The mailbox that the header names. -/
def Header.box (h : Header) : ℕ := h.toAddr.toInt.toNat

namespace Message

/-- The packet header with `from` and `length` filled in. -/
def filledHdr (m : Message) : PacketHeader :=
  { m.pktHdr with
    fromAddr := m.netAddr
    length := BitVec.ofNat 32 (m.mailHdr.length.toNat + sizeofHeader) }

/-- The buffer of `PostOffice::Send`. -/
def payload (m : Message) : Bytes :=
  m.postBuffer.packet m.mailHdr m.mailHdr.length.toNat m.data

/-- `PostOffice::Send`, up to the call of `Network::Send`. -/
def postSend (m : Message) : Except Stop (PacketHeader × Bytes) :=
  if m.mailHdr.length.toNat ≤ maxMailSize ∧ m.mailHdr.Valid m.numBoxes then
    .ok (m.filledHdr, m.payload)
  else .error .assertion

end Message

/-- `Network::Send` for a packet that is not lost: what goes into the socket. -/
def networkSend (ident : BitVec 32) (hdr : PacketHeader) (data buffer : Bytes) :
    Except Stop Bytes :=
  if 0 < hdr.length.toNat ∧ hdr.length.toNat ≤ maxPacketSize ∧ hdr.fromAddr = ident then
    .ok (buffer.packet hdr hdr.length.toNat data)
  else .error .assertion

def Message.send (m : Message) : Except Stop Bytes := do
  let (hdr, buffer) ← m.postSend
  networkSend m.netAddr hdr buffer m.wireBuffer

/-! ## Receiving -/

/-- `Network`, and what is in its socket. -/
structure Network where
  ident : BitVec 32
  sock : List Bytes
  inHdr : PacketHeader
  inbox : Bytes

namespace Network

/-- `Network::CheckPktAvail`, and whether it calls `readHandler`. -/
def checkPktAvail (net : Network) : Except Stop (Bool × Network) :=
  -- the packet before has not been received yet
  if net.inHdr.length ≠ 0 then .ok (false, net)
  else match net.sock with
    | [] => .ok (false, net)
    | buffer :: sock =>
      let inHdr := buffer.header
      if inHdr.toAddr = net.ident ∧ inHdr.length.toNat ≤ maxPacketSize then
        .ok (true, { net with
          sock := sock
          inHdr := inHdr
          inbox := net.inbox.blit 0 inHdr.length.toNat (buffer.window sizeofHeader) })
      else .error .assertion

/-- `Network::Receive`. -/
def receive (net : Network) (data : Bytes) : PacketHeader × Bytes × Network :=
  let hdr := net.inHdr
  (hdr, if hdr.length ≠ 0 then data.blit 0 hdr.length.toNat net.inbox else data,
    { net with inHdr := { hdr with length := 0 } })

end Network

/-- `Mail`. -/
structure Mail where
  pktHdr : PacketHeader
  mailHdr : MailHeader
  data : Bytes

/-- `Mail::Mail`. What is in the array behind the data is never read. -/
def newMail (pktH : PacketHeader) (mailH : MailHeader) (msgData : Bytes) : Except Stop Mail :=
  if mailH.length.toNat ≤ maxMailSize then
    .ok ⟨pktH, mailH, Bytes.blit (fun _ => 0) 0 mailH.length.toNat msgData⟩
  else .error .assertion

/-- The end of `MailBox::Get`: what it stores for its caller, whose buffer is given. -/
def Mail.get (mail : Mail) (data : Bytes) : Mail :=
  { mail with data := data.blit 0 mail.mailHdr.length.toNat mail.data }

/-! ## The way of a message -/

namespace Message

variable {m : Message} {net : Network} {datagram : Bytes}

/-- The mail is the message, with the header of the packet filled in. -/
structure Delivers (m : Message) (mail : Mail) : Prop where
  pktHdr : mail.pktHdr = m.filledHdr
  mailHdr : mail.mailHdr = m.mailHdr
  data : Bytes.EqUpTo m.mailHdr.length.toNat mail.data m.data

/-- The datagram is that of the message. -/
structure Sent (m : Message) (datagram : Bytes) : Prop where
  header : datagram.header = m.filledHdr
  payload : Bytes.EqUpTo m.filledHdr.length.toNat (datagram.window sizeofHeader) m.payload

/-- The message is in the inbox. -/
structure Buffered (m : Message) (net : Network) : Prop where
  inHdr : net.inHdr = m.filledHdr
  inbox : Bytes.EqUpTo m.filledHdr.length.toNat net.inbox m.payload

/-- The length that `PostOfficeOutput::Send` fills in covers both headers and fits into a packet. -/
theorem filledHdr_length (h : m.mailHdr.length.toNat ≤ maxMailSize) :
    m.filledHdr.length.toNat = m.mailHdr.length.toNat + sizeofHeader ∧
      m.filledHdr.length.toNat ≤ maxPacketSize ∧ m.filledHdr.length ≠ 0 := by
  have hlength : m.filledHdr.length.toNat = m.mailHdr.length.toNat + sizeofHeader := by
    unfold filledHdr
    rw [BitVec.toNat_ofNat, Nat.mod_eq_of_lt]
    unfold maxMailSize maxPacketSize maxWireSize at h
    unfold sizeofHeader at h ⊢
    omega
  refine ⟨hlength, ?_, fun hzero => ?_⟩
  · rw [hlength]
    unfold maxMailSize maxPacketSize maxWireSize sizeofHeader at *
    omega
  · rw [hzero] at hlength
    unfold sizeofHeader at hlength
    simp at hlength

/-- Whatever is sent is the message, and no assertion fails on the way to the network. -/
theorem send_ok_iff : m.send = .ok datagram ↔
    (m.mailHdr.length.toNat ≤ maxMailSize ∧ m.mailHdr.Valid m.numBoxes) ∧
      datagram = m.wireBuffer.packet m.filledHdr m.filledHdr.length.toNat m.payload := by
  unfold send postSend
  by_cases h : m.mailHdr.length.toNat ≤ maxMailSize ∧ m.mailHdr.Valid m.numBoxes
  · obtain ⟨hlength, hmax, -⟩ := filledHdr_length h.1
    have hpos : 0 < m.filledHdr.length.toNat := by
      rw [hlength]
      exact Nat.lt_add_left _ (by decide)
    rw [if_pos h, PartialRun.ok_bind]
    dsimp only
    rw [networkSend, if_pos ⟨hpos, hmax, rfl⟩, Except.ok.injEq]
    constructor
    · intro heq
      exact ⟨h, heq.symm⟩
    · intro heq
      exact heq.2.symm
  · rw [if_neg h, PartialRun.error_bind]
    constructor
    · intro heq
      cases heq
    · intro heq
      exact absurd heq.1 h

/-- A message that was sent met the `ASSERT`s of both `Send`s. -/
theorem sent_of_send (h : m.send = .ok datagram) : m.Sent datagram := by
  obtain ⟨-, rfl⟩ := send_ok_iff.mp h
  exact ⟨Bytes.header_packet _ _ _ _, Bytes.window_packet _ _ _ _⟩

/-- The payload of a packet starts with the mail header. -/
theorem payload_header : m.payload.header = m.mailHdr := Bytes.header_packet _ _ _ _

/-- And goes on with the bytes of the message. -/
theorem payload_data :
    Bytes.EqUpTo m.mailHdr.length.toNat (m.payload.window sizeofHeader) m.data :=
  Bytes.window_packet _ _ _ _

/-- A poll reads the next message into an empty inbox. -/
theorem Sent.checkPktAvail (h : m.Sent datagram) {sock : List Bytes}
    (hempty : net.inHdr.length = 0) (hsock : net.sock = datagram :: sock)
    (hto : m.pktHdr.toAddr = net.ident) (hlength : m.mailHdr.length.toNat ≤ maxMailSize) :
    ∃ net', net.checkPktAvail = .ok (true, net') ∧ m.Buffered net' ∧ net'.sock = sock ∧
      net'.ident = net.ident := by
  obtain ⟨-, hmax, -⟩ := filledHdr_length hlength
  refine ⟨{ net with
    sock := sock
    inHdr := m.filledHdr
    inbox := net.inbox.blit 0 m.filledHdr.length.toNat (datagram.window sizeofHeader) }, ?_,
    ⟨rfl, (Bytes.blit_start _ _ _).trans h.payload⟩, rfl, rfl⟩
  rw [Network.checkPktAvail, if_neg (by simp [hempty]), hsock]
  dsimp only
  rw [h.header, if_pos ⟨hto, hmax⟩]

/-- `Receive` takes the message out of the inbox. -/
theorem Buffered.receive (h : m.Buffered net) (hlength : m.mailHdr.length.toNat ≤ maxMailSize)
    (buffer : Bytes) : ∃ buffer' net', net.receive buffer = (m.filledHdr, buffer', net') ∧
      buffer'.header = m.mailHdr ∧
      Bytes.EqUpTo m.mailHdr.length.toNat (buffer'.window sizeofHeader) m.data ∧
      net'.inHdr.length = 0 ∧ net'.sock = net.sock ∧ net'.ident = net.ident := by
  obtain ⟨hfilled, -, hne⟩ := filledHdr_length hlength
  have heq : Bytes.EqUpTo m.filledHdr.length.toNat
      (buffer.blit 0 m.filledHdr.length.toNat net.inbox) m.payload :=
    (Bytes.blit_start _ _ _).trans h.inbox
  refine ⟨buffer.blit 0 m.filledHdr.length.toNat net.inbox,
    { net with inHdr := { m.filledHdr with length := 0 } }, ?_, ?_, fun k hk => ?_, rfl, rfl, rfl⟩
  · rw [Network.receive]
    dsimp only
    rw [h.inHdr, if_pos hne]
  · rw [Bytes.header_congr (by omega) heq, payload_header]
  · rw [Bytes.window, heq _ (by omega)]
    exact payload_data k hk

/-- `PostalDelivery` makes of the packet a mail with the header and the bytes that were sent. -/
theorem newMail_delivers {msgData : Bytes} (hlength : m.mailHdr.length.toNat ≤ maxMailSize)
    (hdata : Bytes.EqUpTo m.mailHdr.length.toNat msgData m.data) :
    ∃ mail, newMail m.filledHdr m.mailHdr msgData = .ok mail ∧ m.Delivers mail :=
  ⟨_, if_pos hlength, rfl, rfl, (Bytes.blit_start _ _ _).trans hdata⟩

end Message
end NachOS
