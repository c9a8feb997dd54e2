import Aldivine.Admission.Handshake
import Aldivine.Downloads.Coverage
import Aldivine.Foundation.Fallible
import Aldivine.Protocol.Codec
import Aldivine.Transfers.Chunks

namespace Aldivine.Transfers.Fetching

open Core.Error Foundation.Fallible Foundation.Text Foundation.Wire Files.Directories Resolving
open Chunks
open Protocol.Codec Protocol.RoundTrip Downloads.Coverage
open Downloads.Model hiding step Call
open Admission.Handshake (ResourceEntry)

section Transport

def protocolVersion : BitVec 16 := 1

def mtu : ℕ := 1400

def maxDatagram : ℕ := 65507

def send (p : Packet) : Except AldError (List UInt8) :=
  match encodePacket p with
  | .error e => .error e
  | .ok buf =>
    if buf.length > maxDatagram then
      .error (.network "send_to: Message too long (os error 90)")
    else .ok buf

/-- `UdpTransport::recv` of a datagram, of which no more is read than the buffer holds. -/
def recv (datagram : List UInt8) : Except AldError Packet :=
  decodePacket (datagram.take mtu) protocolVersion

def transferPacket (sessionId timestampMs : BitVec 64) (payload : List UInt8) : Packet :=
  ⟨⟨protocolVersion, sessionId, .resourceTransfer, 0, 0, timestampMs, 0,
    BitVec.ofNat 32 payload.length⟩, payload⟩

theorem mtu_le_maxDatagram : mtu ≤ maxDatagram := by decide

end Transport

/-- A client and an admitted session of it on a server, joined by a channel that delivers every
datagram. -/
structure Link where
  json : TransferJson
  sha256Hex : List UInt8 → String
  fs : Tree
  configured : String
  sessionId : BitVec 64
  serverSessionId : BitVec 64
  nowMs : ℕ → BitVec 64

inductive FetchError
  | plan (e : DownloadError)
  | stalled (name : String)
  | noRange
  | request (e : AldError)
  | send (e : AldError)
  | response (e : AldError)
  | wrongFile
  | receive (e : DownloadError)
  | incomplete
  | hashMismatch (name : String)
deriving DecidableEq

/-- What one pass of the loop asks for, and what `recv` makes of the answer, `none` if there is
none in time. -/
structure Exchange where
  request : TransferRequest
  received : Option (Except AldError Packet)

namespace Link

variable (link : Link)

/-- The answer of the server's loop to the datagram of an attempt; it says nothing on an error. -/
def answer (attempt : ℕ) (datagram : List UInt8) : Option (List UInt8) :=
  match recv datagram with
  | .error _ => none
  | .ok packet =>
    if packet.header.channel ≠ .resourceTransfer then none
    else
      match serveChunk link.json link.sha256Hex link.fs true packet.payload link.configured with
      | .error _ => none
      | .ok body => (send (transferPacket link.serverSessionId (link.nowMs attempt) body)).toOption

def accept (name : String) (size : BitVec 64) (tick : ℕ) (d : Download) :
    Option (Except AldError Packet) → Except FetchError Download
  | some (.ok packet) =>
    if packet.header.channel = .resourceTransfer then
      match decodeResponse link.json packet.payload with
      | .error e => .error (.response e)
      | .ok (header, data) =>
        if header.name ≠ name ∨ header.total ≠ size then .error .wrongFile
        else
          match d.receive header.offset data (BitVec.ofNat 64 tick) with
          | (d, .ok ()) => .ok d
          | (_, .error e) => .error (.receive e)
    else .ok d
  | _ => .ok d

def pass (name : String) (size : BitVec 64) (attempt : ℕ) (d : Download) :
    Option Exchange × Except FetchError Download :=
  match d.missingRanges.head? with
  | none => (none, .error .noRange)
  | some (offset, len) =>
    let request : TransferRequest := ⟨name, BitVec.ofNat 64 offset, BitVec.ofNat 64 len⟩
    match encodeRequest link.json request with
    | .error e => (some ⟨request, none⟩, .error (.request e))
    | .ok payload =>
      match send (transferPacket link.sessionId 0 payload) with
      | .error e => (some ⟨request, none⟩, .error (.send e))
      | .ok datagram =>
        let received := (link.answer attempt datagram).map recv
        (some ⟨request, received⟩, link.accept name size (attempt + 1) d received)

def fetchLoop (name : String) (size : BitVec 64) :
    ℕ → ℕ → Download → List Exchange × Except FetchError Download
  | 0, _, d => ([], if d.isComplete then .ok d else .error (.stalled name))
  | left + 1, attempt, d =>
    if d.isComplete then ([], .ok d)
    else
      match link.pass name size attempt d with
      | (exchange, .error e) => (exchange.toList, .error e)
      | (exchange, .ok d) =>
        let (log, result) := fetchLoop name size left (attempt + 1) d
        (exchange.toList ++ log, result)

/-- The download and the check of what it gives; the bytes are then committed to the cache. -/
def fetchResourceFile (name : String) (expected : ResourceEntry) :
    List Exchange × Except FetchError (List UInt8) :=
  match ChunkPlan.new expected.size.toBitVec chunkCap with
  | .error e => ([], .error (.plan e))
  | .ok plan =>
    let (log, result) := link.fetchLoop name expected.size.toBitVec
      (3 * max plan.chunkCount.toNat 1 + 11) 0 (.new plan 0)
    match result with
    | .error e => (log, .error e)
    | .ok d =>
      match d.assembled with
      | none => (log, .error .incomplete)
      | some bytes =>
        if link.sha256Hex bytes ≠ expected.hash then (log, .error (.hashMismatch name))
        else (log, .ok bytes)

end Link

/-- The file is fetched, and on the way every request was accepted and every answer was read. -/
structure Fetched (link : Link) (name : String) (expected : ResourceEntry) (file : List UInt8) :
    Prop where
  result : (link.fetchResourceFile name expected).2 = .ok file
  accepted : ∀ x ∈ (link.fetchResourceFile name expected).1,
    ∃ payload, encodeRequest link.json x.request = .ok payload
  decoded : ∀ x ∈ (link.fetchResourceFile name expected).1,
    ∃ packet header data, x.received = some (.ok packet) ∧
      decodeResponse link.json packet.payload = .ok (header, data)

/-- The request for the whole file, and the answer with the whole file, fit in what is read of a
datagram. -/
def Fits (link : Link) (name : String) (file : List UInt8) (size : BitVec 64) : Prop :=
  headerLen + (link.json.writeRequest ⟨name, 0, size⟩).length ≤ mtu ∧
    headerLen + (link.json.writeHeader ⟨name, 0, size, link.sha256Hex file⟩).length + 1 +
      file.length ≤ mtu

section Datagrams

variable {sessionId timestampMs : BitVec 64} {payload datagram : List UInt8}

theorem payloadLen_toNat (h : headerLen + payload.length ≤ maxDatagram) :
    (transferPacket sessionId timestampMs payload).header.payloadLen.toNat = payload.length := by
  have hlt : payload.length < 2 ^ 32 := by
    rw [headerLen, maxDatagram] at h
    omega
  exact (BitVec.toNat_ofNat _ _).trans (Nat.mod_eq_of_lt hlt)

theorem send_eq_ok :
    send (transferPacket sessionId timestampMs payload) = .ok datagram ↔
      headerLen + payload.length ≤ maxDatagram ∧
        datagram = (transferPacket sessionId timestampMs payload).header.bytes ++ payload := by
  have hlength : ((transferPacket sessionId timestampMs payload).header.bytes ++ payload).length =
      headerLen + payload.length := by
    rw [List.length_append, length_bytes]
  constructor
  · intro h
    unfold send at h
    split at h
    · cases h
    · rename_i buf hbuf
      obtain ⟨-, -, rfl⟩ := encodePacket_eq_ok.mp hbuf
      split at h
      · cases h
      · rename_i hshort
        obtain rfl := Except.ok.inj h
        exact ⟨hlength ▸ Nat.not_lt.mp hshort, rfl⟩
  · rintro ⟨hshort, rfl⟩
    have hmax : (transferPacket sessionId timestampMs payload).header.payloadLen.toNat ≤
        maxPayload := by
      rw [payloadLen_toNat hshort, maxPayload]
      rw [maxDatagram] at hshort
      omega
    have hencode : encodePacket (transferPacket sessionId timestampMs payload) =
        .ok ((transferPacket sessionId timestampMs payload).header.bytes ++ payload) :=
      encodePacket_eq_ok.mpr ⟨rfl, hmax, rfl⟩
    rw [send, hencode]
    exact if_neg (Nat.not_lt.mpr (hlength ▸ hshort))

theorem decodePacket_cut {header : PacketHeader} {rest : List UInt8} {version : BitVec 16}
    {p : Packet} (h : decodePacket (header.bytes ++ rest) version = .ok p) :
    rest.length = header.payloadLen.toNat := by
  obtain ⟨-, hlen, -, hbytes⟩ := bytes_of_decodePacket h
  obtain ⟨hheader, hrest⟩ := List.append_inj hbytes (by rw [length_bytes, length_bytes])
  have hslice := (slices_bytes header []).2.2.2.2.2.2.2
  rw [hheader, (slices_bytes p.header []).2.2.2.2.2.2.2] at hslice
  have hsame : p.header.payloadLen = header.payloadLen := by
    rw [← ofNat_ofLE_toLE 4 (by decide) p.header.payloadLen, hslice,
      ofNat_ofLE_toLE 4 (by decide)]
  rw [hrest, hlen, hsame]

theorem recv_of_fits (sessionId timestampMs : BitVec 64) (h : headerLen + payload.length ≤ mtu) :
    recv ((transferPacket sessionId timestampMs payload).header.bytes ++ payload) =
      .ok (transferPacket sessionId timestampMs payload) := by
  have hmax := h.trans mtu_le_maxDatagram
  have hwhole : (transferPacket sessionId timestampMs payload).header.bytes.length +
      payload.length ≤ mtu := by
    rw [length_bytes]
    exact h
  rw [recv, List.take_of_length_le (by rw [List.length_append]; exact hwhole)]
  refine decodePacket_bytes (p := transferPacket sessionId timestampMs payload)
    (payloadLen_toNat hmax).symm ?_
  rw [payloadLen_toNat hmax, maxPayload]
  rw [maxDatagram, headerLen] at hmax
  omega

/-- One that the buffer does not hold is cut, and does not decode. -/
theorem fits_of_recv {p : Packet} (hmax : headerLen + payload.length ≤ maxDatagram)
    (h : recv ((transferPacket sessionId timestampMs payload).header.bytes ++ payload) = .ok p) :
    headerLen + payload.length ≤ mtu := by
  rw [recv, List.take_append, length_bytes, List.take_of_length_le] at h
  · have hlen := decodePacket_cut h
    rw [payloadLen_toNat hmax, List.length_take, mtu, headerLen] at hlen
    rw [mtu, headerLen]
    omega
  · rw [length_bytes, headerLen, mtu]
    omega

end Datagrams

section Downloads

variable {plan : ChunkPlan} {nowTick : BitVec 64} {file : List UInt8}

theorem missingRanges_new (hne : plan.fileLen.toNat ≠ 0) :
    (Download.new plan nowTick).missingRanges = [(0, plan.fileLen.toNat)] := by
  have hscan (n : ℕ) : (List.replicate (n + 1) false).zipIdx.foldl scanByte ([], none) =
      ([], some (0, n + 1)) := by
    induction n with
    | zero => rfl
    | succ n ih =>
      rw [List.replicate_succ', List.zipIdx_append, List.foldl_append, ih]
      rfl
  obtain ⟨n, hn⟩ := Nat.exists_eq_succ_of_ne_zero hne
  rw [Download.missingRanges, Download.new, hn, hscan]
  rfl

theorem isComplete_new (hne : plan.fileLen.toNat ≠ 0) :
    (Download.new plan nowTick).isComplete = false := by
  rw [Download.isComplete, Download.new, beq_eq_false_iff_ne]
  intro heq
  exact hne (congrArg BitVec.toNat heq.symm)

theorem receive_whole (hplan : plan.fileLen.toNat = file.length) (hne : file ≠ [])
    (nowTick tick : BitVec 64) :
    ∃ d, (Download.new plan nowTick).receive 0 file tick = (d, .ok ()) ∧ d.isComplete = true ∧
      d.assembled = some file := by
  have hlen : plan.fileLen.toNat ≠ 0 := by
    rw [hplan]
    exact List.length_eq_zero_iff.not.mpr hne
  have htracks := @step_tracks _ _ _ ⟨0, file, tick⟩ (tracks_new hplan nowTick)
    (fun _ ↦ List.prefix_rfl)
  have hreceived := step_received (Download.new plan nowTick) ⟨0, file, tick⟩
  obtain ⟨d, answer, hstep⟩ : ∃ d answer, Downloads.Model.step (Download.new plan nowTick)
      ⟨0, file, tick⟩ = (d, answer) := ⟨_, _, rfl⟩
  rw [hstep] at htracks hreceived
  cases hreceived with
  | rejected hwhy =>
    rcases hwhy with hcomplete | hbeyond
    · rw [isComplete_new hlen] at hcomplete
      cases hcomplete
    · have hlong : plan.fileLen.toNat < 0 + file.length := hbeyond
      omega
  | accepted hopen =>
    have hcomplete : d.isComplete = true := by
      rw [isComplete_iff htracks]
      intro i hi
      simp [coveredBy, brings, hi, Except.isOk, Except.toBool]
    have hbytes : d.assembled = some d.bytes := if_pos hcomplete
    refine ⟨d, hstep, hcomplete, ?_⟩
    rw [hbytes, assembled_eq_some htracks hbytes]

end Downloads

section Passes

variable {link : Link} {name : String} {file : List UInt8} {size : BitVec 64} {plan : ChunkPlan}
  {attempt : ℕ}

/-- The answer to a request that arrives is the whole file, if it can be sent. -/
theorem answer_of_fits (hserves : Serves link.fs link.configured name file)
    (hsize : size.toNat = file.length) (hcap : file.length ≤ chunkCap.toNat)
    (hjson : link.json.Restores ⟨name, 0, size⟩ ⟨name, 0, size, link.sha256Hex file⟩)
    (hrequest : headerLen + (link.json.writeRequest ⟨name, 0, size⟩).length ≤ mtu) :
    link.answer attempt ((transferPacket link.sessionId 0
        (link.json.writeRequest ⟨name, 0, size⟩)).header.bytes ++
          link.json.writeRequest ⟨name, 0, size⟩) =
      (send (transferPacket link.serverSessionId (link.nowMs attempt)
        (link.json.writeHeader ⟨name, 0, size, link.sha256Hex file⟩ ++ 10 :: file))).toOption := by
  have hlength : (link.json.writeRequest ⟨name, 0, size⟩).length ≤ maxRequest := by
    rw [mtu] at hrequest
    rw [maxRequest]
    omega
  have hserve := serveChunk_whole hserves hsize hcap hjson hlength
  rw [Link.answer, recv_of_fits link.sessionId 0 hrequest]
  simp only [transferPacket, ne_eq, not_true_eq_false, if_false, hserve]

/-- An answer that is read means that both datagrams fit. -/
theorem fits_of_received {datagram : List UInt8} {packet : Packet}
    (hserves : Serves link.fs link.configured name file) (hsize : size.toNat = file.length)
    (hcap : file.length ≤ chunkCap.toNat)
    (hjson : link.json.Restores ⟨name, 0, size⟩ ⟨name, 0, size, link.sha256Hex file⟩)
    (hsend : send (transferPacket link.sessionId 0 (link.json.writeRequest ⟨name, 0, size⟩)) =
      .ok datagram)
    (h : (link.answer attempt datagram).map recv = some (.ok packet)) :
    Fits link name file size := by
  obtain ⟨hmax, rfl⟩ := send_eq_ok.mp hsend
  obtain ⟨reply, hreply, hpacket⟩ := Option.map_eq_some_iff.mp h
  have hrequest : headerLen + (link.json.writeRequest ⟨name, 0, size⟩).length ≤ mtu := by
    cases hrecv : recv ((transferPacket link.sessionId 0
        (link.json.writeRequest ⟨name, 0, size⟩)).header.bytes ++
          link.json.writeRequest ⟨name, 0, size⟩) with
    | error e =>
      rw [Link.answer, hrecv] at hreply
      cases hreply
    | ok p => exact fits_of_recv hmax hrecv
  rw [answer_of_fits hserves hsize hcap hjson hrequest, toOption_eq_some] at hreply
  obtain ⟨hmax', rfl⟩ := send_eq_ok.mp hreply
  have hreply := fits_of_recv hmax' hpacket
  rw [List.length_append, List.length_cons] at hreply
  exact ⟨hrequest, by omega⟩

theorem pass_new (hsize : size.toNat ≠ 0) (hplan : plan.fileLen = size) :
    link.pass name size attempt (.new plan 0) =
      match encodeRequest link.json ⟨name, 0, size⟩ with
      | .error e => (some ⟨⟨name, 0, size⟩, none⟩, .error (.request e))
      | .ok payload =>
        match send (transferPacket link.sessionId 0 payload) with
        | .error e => (some ⟨⟨name, 0, size⟩, none⟩, .error (.send e))
        | .ok datagram =>
          (some ⟨⟨name, 0, size⟩, (link.answer attempt datagram).map recv⟩,
            link.accept name size (attempt + 1) (.new plan 0)
              ((link.answer attempt datagram).map recv)) := by
  have hrange : BitVec.ofNat 64 size.toNat = size := by
    rw [BitVec.ofNat_toNat, BitVec.setWidth_eq]
  rw [Link.pass, missingRanges_new (by rw [hplan]; exact hsize), List.head?_cons, hplan]
  simp only [hrange]
  rfl

theorem pass_misses (hsize : size.toNat ≠ 0) (hplan : plan.fileLen = size)
    (hserves : Serves link.fs link.configured name file) (hlength : size.toNat = file.length)
    (hjson : link.json.Restores ⟨name, 0, size⟩ ⟨name, 0, size, link.sha256Hex file⟩)
    (h : ¬Fits link name file size) :
    (∃ e, (link.pass name size attempt (.new plan 0)).2 = .error e) ∨
      (link.pass name size attempt (.new plan 0)).2 = .ok (.new plan 0) := by
  rw [pass_new hsize hplan]
  split
  · exact .inl ⟨_, rfl⟩
  rename_i payload hencode
  obtain ⟨hcap, rfl⟩ := encodeRequest_eq_ok.mp hencode
  split
  · exact .inl ⟨_, rfl⟩
  rename_i datagram hsend
  refine .inr ?_
  cases hreceived : (link.answer attempt datagram).map recv with
  | none => rfl
  | some received =>
    cases received with
    | error e => rfl
    | ok packet =>
      exact absurd (fits_of_received hserves hlength (hlength ▸ hcap) hjson hsend hreceived) h

theorem length_le_of_fits (h : Fits link name file size) : file.length ≤ chunkCap.toNat := by
  have hcap : chunkCap.toNat = 32768 := rfl
  have hreply := h.2
  rw [mtu] at hreply
  omega

theorem pass_fits (hsize : size.toNat ≠ 0) (hplan : plan.fileLen = size)
    (hserves : Serves link.fs link.configured name file) (hlength : size.toNat = file.length)
    (hjson : link.json.Restores ⟨name, 0, size⟩ ⟨name, 0, size, link.sha256Hex file⟩)
    (h : Fits link name file size) :
    ∃ packet d, link.pass name size attempt (.new plan 0) =
        (some ⟨⟨name, 0, size⟩, some (.ok packet)⟩, .ok d) ∧
      decodeResponse link.json packet.payload =
        .ok (⟨name, 0, size, link.sha256Hex file⟩, file) ∧
      d.isComplete = true ∧ d.assembled = some file := by
  have hcap := length_le_of_fits h
  obtain ⟨hrequest, hreply⟩ := h
  have hbody : headerLen + (link.json.writeHeader ⟨name, 0, size, link.sha256Hex file⟩ ++
      10 :: file).length ≤ mtu := by
    rw [List.length_append, List.length_cons]
    omega
  have hencode : encodeRequest link.json ⟨name, 0, size⟩ =
      .ok (link.json.writeRequest ⟨name, 0, size⟩) :=
    encodeRequest_eq_ok.mpr ⟨by rw [hlength]; exact hcap, rfl⟩
  have hdecode := decodeResponse_encode hjson hcap
  obtain ⟨d, hreceive, hcomplete, hassembled⟩ := receive_whole
    (by rw [hplan]; exact hlength) (List.length_eq_zero_iff.not.mp (hlength ▸ hsize)) 0
    (BitVec.ofNat 64 (attempt + 1))
  refine ⟨transferPacket link.serverSessionId (link.nowMs attempt)
    (link.json.writeHeader ⟨name, 0, size, link.sha256Hex file⟩ ++ 10 :: file), d, ?_, hdecode,
    hcomplete, hassembled⟩
  rw [pass_new hsize hplan, hencode]
  simp only [send_eq_ok.mpr ⟨hrequest.trans mtu_le_maxDatagram, rfl⟩,
    answer_of_fits hserves hlength hcap hjson hrequest]
  rw [send_eq_ok.mpr ⟨hbody.trans mtu_le_maxDatagram, rfl⟩]
  have harrives := recv_of_fits link.serverSessionId (link.nowMs attempt) hbody
  simp only [Except.toOption, Option.map_some]
  rw [harrives]
  have haccept : link.accept name size (attempt + 1) (.new plan 0)
      (some (.ok (transferPacket link.serverSessionId (link.nowMs attempt)
        (link.json.writeHeader ⟨name, 0, size, link.sha256Hex file⟩ ++ 10 :: file)))) = .ok d := by
    simp only [Link.accept, transferPacket, if_true, hdecode, ne_eq, not_true_eq_false, or_self,
      if_false, hreceive]
  rw [haccept]

end Passes

section Runs

variable {link : Link} {name : String} {size : BitVec 64} {plan : ChunkPlan} {d : Download}

theorem fetchLoop_misses (hopen : d.isComplete = false)
    (h : ∀ attempt, (∃ e, (link.pass name size attempt d).2 = .error e) ∨
      (link.pass name size attempt d).2 = .ok d) (left attempt : ℕ) :
    ∃ e, (link.fetchLoop name size left attempt d).2 = .error e := by
  induction left generalizing attempt with
  | zero => exact ⟨_, by rw [Link.fetchLoop, hopen]; rfl⟩
  | succ left ih =>
    rw [Link.fetchLoop, hopen, if_neg Bool.false_ne_true]
    have hpass := h attempt
    generalize link.pass name size attempt d = r at hpass
    obtain ⟨exchange, outcome⟩ := r
    rcases hpass with ⟨e, rfl⟩ | rfl
    · exact ⟨e, rfl⟩
    · exact ih (attempt + 1)

theorem fetchLoop_brings {attempt : ℕ} {exchange : Exchange} {d' : Download}
    (hopen : d.isComplete = false)
    (hpass : link.pass name size attempt d = (some exchange, .ok d'))
    (hcomplete : d'.isComplete = true) (left : ℕ) :
    link.fetchLoop name size (left + 1) attempt d = ([exchange], .ok d') := by
  have hrest : link.fetchLoop name size left (attempt + 1) d' = ([], .ok d') := by
    cases left with
    | zero => rw [Link.fetchLoop, hcomplete, if_pos rfl]
    | succ left => rw [Link.fetchLoop, hcomplete, if_pos rfl]
  rw [Link.fetchLoop, hopen, if_neg Bool.false_ne_true, hpass]
  simp only [hrest]
  rfl

structure Offered (link : Link) (name : String) (expected : ResourceEntry) (file : List UInt8) :
    Prop where
  serves : Serves link.fs link.configured name file
  size : expected.size.toNat = file.length
  hash : expected.hash = link.sha256Hex file
  nonempty : file ≠ []

variable {expected : ResourceEntry} {file : List UInt8}

theorem Offered.size_ne (h : Offered link name expected file) :
    expected.size.toBitVec.toNat ≠ 0 := by
  intro heq
  exact h.nonempty (List.length_eq_zero_iff.mp (h.size.symm.trans heq))

theorem Offered.exists_plan (h : Offered link name expected file) :
    ∃ plan, ChunkPlan.new expected.size.toBitVec chunkCap = .ok plan ∧
      plan.fileLen = expected.size.toBitVec := by
  have hsize : expected.size.toBitVec ≠ 0 := fun heq ↦ h.size_ne (congrArg BitVec.toNat heq)
  exact ⟨_, if_neg (not_or.mpr ⟨hsize, by decide⟩), rfl⟩

theorem fits_of_fetched (h : Offered link name expected file)
    (hjson : link.json.Restores ⟨name, 0, expected.size.toBitVec⟩
      ⟨name, 0, expected.size.toBitVec, link.sha256Hex file⟩)
    (hfetched : Fetched link name expected file) :
    Fits link name file expected.size.toBitVec := by
  by_contra hnot
  obtain ⟨plan, hplan, hlen⟩ := h.exists_plan
  have hopen : (Download.new plan 0).isComplete = false :=
    isComplete_new (by rw [hlen]; exact h.size_ne)
  obtain ⟨e, hloop⟩ := fetchLoop_misses hopen
    (fun attempt ↦ @pass_misses _ _ _ _ _ attempt h.size_ne hlen h.serves h.size hjson hnot)
    (3 * max plan.chunkCount.toNat 1 + 11) 0
  have hresult := hfetched.result
  rw [Link.fetchResourceFile, hplan] at hresult
  simp only [hloop] at hresult
  cases hresult

theorem fetched_of_fits (h : Offered link name expected file)
    (hjson : link.json.Restores ⟨name, 0, expected.size.toBitVec⟩
      ⟨name, 0, expected.size.toBitVec, link.sha256Hex file⟩)
    (hfits : Fits link name file expected.size.toBitVec) : Fetched link name expected file := by
  obtain ⟨plan, hplan, hlen⟩ := h.exists_plan
  have hopen : (Download.new plan 0).isComplete = false :=
    isComplete_new (by rw [hlen]; exact h.size_ne)
  obtain ⟨packet, d, hpass, hdecode, hcomplete, hassembled⟩ :=
    @pass_fits _ _ _ _ _ 0 h.size_ne hlen h.serves h.size hjson hfits
  have hloop := fetchLoop_brings hopen hpass hcomplete (3 * max plan.chunkCount.toNat 1 + 10)
  have hfetch : link.fetchResourceFile name expected =
      ([⟨⟨name, 0, expected.size.toBitVec⟩, some (.ok packet)⟩], .ok file) := by
    rw [Link.fetchResourceFile, hplan]
    simp only [hloop, hassembled, h.hash, ne_eq, not_true_eq_false, if_false]
  have hcap : expected.size.toNat ≤ chunkCap.toNat := by
    rw [h.size]
    exact length_le_of_fits hfits
  refine ⟨?_, ?_, ?_⟩
  · rw [hfetch]
  · rw [hfetch, List.forall_mem_singleton]
    exact ⟨_, encodeRequest_eq_ok.mpr ⟨hcap, rfl⟩⟩
  · rw [hfetch, List.forall_mem_singleton]
    exact ⟨packet, _, _, rfl, hdecode⟩

/-- A file is fetched exactly when the request for it, and all of it in one answer, fit in what is
read of a datagram. -/
theorem fetched_iff_fits (link : Link) (name : String) (expected : ResourceEntry)
    (file : List UInt8) (h : Offered link name expected file)
    (hjson : link.json.Restores ⟨name, 0, expected.size.toBitVec⟩
      ⟨name, 0, expected.size.toBitVec, link.sha256Hex file⟩) :
    Fetched link name expected file ↔ Fits link name file expected.size.toBitVec :=
  ⟨fits_of_fetched h hjson, fetched_of_fits h hjson⟩

end Runs

section Demo

/-- What `serde_json` writes where no name has to be escaped; of what it reads, the two given
records. -/
def plainJson (req : TransferRequest) (header : TransferHeader) : TransferJson :=
  let writeRequest (req : TransferRequest) : List UInt8 :=
    utf8 ("\x7b\"name\":\"" ++ req.name ++ "\",\"offset\":" ++ toString req.offset.toNat ++
      ",\"len\":" ++ toString req.len.toNat ++ "\x7d")
  let writeHeader (header : TransferHeader) : List UInt8 :=
    utf8 ("\x7b\"name\":\"" ++ header.name ++ "\",\"offset\":" ++ toString header.offset.toNat ++
      ",\"total\":" ++ toString header.total.toNat ++ ",\"sha256\":\"" ++ header.sha256 ++
      "\"\x7d")
  { writeRequest := writeRequest
    readRequest bytes := if bytes = writeRequest req then .ok req else .error "expected value"
    writeHeader := writeHeader
    readHeader bytes := if bytes = writeHeader header then .ok header else .error "expected value" }

theorem plainJson_restores {req : TransferRequest} {header : TransferHeader}
    (h : 10 ∉ (plainJson req header).writeHeader header) :
    (plainJson req header).Restores req header :=
  ⟨if_pos rfl, if_pos rfl, h⟩

def demo (file : List UInt8) (entry : ResourceEntry) : Link where
  json := plainJson ⟨entry.name, 0, entry.size.toBitVec⟩
    ⟨entry.name, 0, entry.size.toBitVec, entry.hash⟩
  sha256Hex _ := entry.hash
  fs := server
    (fun place ↦ if place = ["srv", "resources", "demo", "data.bin"] then some file else none)
  configured := "resources"
  sessionId := 1
  serverSessionId := 1
  nowMs _ := 0

theorem demo_offered {file : List UInt8} {entry : ResourceEntry}
    (hresolve : resolveFile (demo file entry).fs entry.name "resources" =
      .ok "/srv/resources/demo/data.bin")
    (hsize : entry.size.toNat = file.length) (hne : file ≠ []) :
    Offered (demo file entry) entry.name entry file := by
  refine ⟨⟨_, hresolve, ?_⟩, hsize, rfl, hne⟩
  rfl

def digits : List UInt8 := utf8 "0123456789abcdef"

def digitsEntry : ResourceEntry :=
  ⟨"demo/data.bin", "9f9f5111f7b27a781f1f1ddde5ebc2dd2b796bfc7365c9c28b548e564176929f", 16⟩

theorem digits_fetched : Fetched (demo digits digitsEntry) "demo/data.bin" digitsEntry digits := by
  have hoffered : Offered (demo digits digitsEntry) "demo/data.bin" digitsEntry digits :=
    demo_offered (by decide +kernel) (by decide +kernel) (by decide +kernel)
  refine (fetched_iff_fits _ _ _ _ hoffered (plainJson_restores ?_)).mpr ?_
  · decide +kernel
  · exact ⟨by decide +kernel, by decide +kernel⟩

def zeros : List UInt8 := List.replicate 40000 0

def zerosEntry : ResourceEntry :=
  ⟨"demo/data.bin", "e7e2dcff542de95352682dc186432e98f0188084896773f1973276b0577d5305", 40000⟩

theorem zeros_not_fetched :
    Offered (demo zeros zerosEntry) "demo/data.bin" zerosEntry zeros ∧
      ¬Fetched (demo zeros zerosEntry) "demo/data.bin" zerosEntry zeros := by
  have hlength : zeros.length = 40000 := List.length_replicate
  have hne : zeros ≠ [] := by
    intro heq
    rw [heq] at hlength
    cases hlength
  have hoffered : Offered (demo zeros zerosEntry) "demo/data.bin" zerosEntry zeros :=
    demo_offered (by decide +kernel) hlength.symm hne
  refine ⟨hoffered, fun hfetched ↦ ?_⟩
  have hfits := fits_of_fetched hoffered (plainJson_restores (by decide +kernel)) hfetched
  have hcap := length_le_of_fits hfits
  rw [hlength] at hcap
  exact absurd hcap (by decide)

end Demo

end Aldivine.Transfers.Fetching
