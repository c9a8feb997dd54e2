import Aldivine.Core.Basics
import Aldivine.Foundation.Wire
import Aldivine.Transfers.Resolving

namespace Aldivine.Transfers.Chunks

open Core.Error Foundation.Wire Files.Directories Resolving

def chunkCap : BitVec 64 := 32 * 1024

def maxRequest : ℕ := 4096

structure TransferRequest where
  name : String
  offset : BitVec 64
  len : BitVec 64
deriving DecidableEq

structure TransferHeader where
  name : String
  offset : BitVec 64
  total : BitVec 64
  sha256 : String
deriving DecidableEq

/-- What `serde_json` writes for the two records, which does not fail, and what it reads. -/
structure TransferJson where
  writeRequest : TransferRequest → List UInt8
  readRequest : List UInt8 → Except String TransferRequest
  writeHeader : TransferHeader → List UInt8
  readHeader : List UInt8 → Except String TransferHeader

/-- `serde_json` reads back the two records that it wrote, and has escaped a newline in the
second. -/
structure TransferJson.Restores (json : TransferJson) (req : TransferRequest)
    (header : TransferHeader) : Prop where
  reads_request : json.readRequest (json.writeRequest req) = .ok req
  reads_header : json.readHeader (json.writeHeader header) = .ok header
  one_line : 10 ∉ json.writeHeader header

variable (json : TransferJson)

def encodeRequest (req : TransferRequest) : Except AldError (List UInt8) :=
  if req.len.toNat > chunkCap.toNat then .error (.protocol "chunk request exceeds CHUNK_CAP")
  else .ok (json.writeRequest req)

def decodeRequest (bytes : List UInt8) : Except AldError TransferRequest :=
  if bytes.length > maxRequest then .error (.protocol "transfer request too large")
  else
    match json.readRequest bytes with
    | .error e => .error (.protocol e)
    | .ok req =>
      if req.len.toNat > chunkCap.toNat then .error (.protocol "chunk request exceeds CHUNK_CAP")
      else .ok req

def encodeResponse (header : TransferHeader) (data : List UInt8) : Except AldError (List UInt8) :=
  if data.length > chunkCap.toNat then .error (.protocol "chunk exceeds CHUNK_CAP")
  else .ok (json.writeHeader header ++ 10 :: data)

def decodeResponse (bytes : List UInt8) : Except AldError (TransferHeader × List UInt8) :=
  match bytes.dropWhile (· ≠ 10) with
  | [] => .error (.protocol "chunk missing header")
  | _ :: data =>
    match json.readHeader (bytes.takeWhile (· ≠ 10)) with
    | .error e => .error (.protocol e)
    | .ok header =>
      if data.length > chunkCap.toNat then .error (.protocol "chunk exceeds CHUNK_CAP")
      else .ok (header, data)

def serveChunk (sha256Hex : List UInt8 → String) (fs : Tree) (ready : Bool) (body : List UInt8)
    (configured : String) : Except String (List UInt8) :=
  if !ready then .error "peer not admitted"
  else
    match decodeRequest json body with
    | .error e => .error e.display
    | .ok req =>
      match resolveFile fs req.name configured with
      | .error e => .error e
      | .ok path =>
        match fs.readAt path with
        | .error e => .error ("read: " ++ e)
        | .ok bytes =>
          let total := BitVec.ofNat 64 bytes.length
          if req.offset.toNat > total.toNat then .error "offset past end"
          else
            -- no file is so long that the sum overflows
            let stop := min (req.offset.toNat + min req.len.toNat chunkCap.toNat) total.toNat
            let header := ⟨req.name, req.offset, total, sha256Hex bytes⟩
            match encodeResponse json header
                (slice bytes req.offset.toNat (stop - req.offset.toNat)) with
            | .error e => .error e.display
            | .ok reply => .ok reply

variable {json} {req : TransferRequest} {header : TransferHeader} {data : List UInt8}

theorem encodeRequest_eq_ok {payload : List UInt8} :
    encodeRequest json req = .ok payload ↔
      req.len.toNat ≤ chunkCap.toNat ∧ payload = json.writeRequest req := by
  unfold encodeRequest
  split
  · rename_i hlong
    exact iff_of_false (by rintro ⟨⟩) (fun h ↦ Nat.not_lt.mpr h.1 hlong)
  · rename_i hshort
    rw [Except.ok.injEq, eq_comm]
    exact (and_iff_right (Nat.not_lt.mp hshort)).symm

theorem decodeResponse_encode (hjson : json.Restores req header)
    (hdata : data.length ≤ chunkCap.toNat) :
    decodeResponse json (json.writeHeader header ++ 10 :: data) = .ok (header, data) := by
  have hline : ∀ b ∈ json.writeHeader header, decide (b ≠ 10) = true := by
    intro b hb
    exact decide_eq_true (fun heq ↦ hjson.one_line (heq ▸ hb))
  have hdrop : (json.writeHeader header ++ 10 :: data).dropWhile (· ≠ 10) = 10 :: data := by
    rw [List.dropWhile_append_of_pos hline]
    rfl
  have htake : (json.writeHeader header ++ 10 :: data).takeWhile (· ≠ 10) =
      json.writeHeader header := by
    rw [List.takeWhile_append_of_pos hline]
    exact List.append_nil _
  rw [decodeResponse, hdrop, htake]
  simp only [hjson.reads_header]
  exact if_neg (Nat.not_lt.mpr hdata)

def Serves (fs : Tree) (configured name : String) (file : List UInt8) : Prop :=
  ∃ path, resolveFile fs name configured = .ok path ∧ fs.readAt path = .ok file

theorem serveChunk_whole {sha256Hex : List UInt8 → String} {fs : Tree} {configured name : String}
    {file : List UInt8} {size : BitVec 64} (hserves : Serves fs configured name file)
    (hsize : size.toNat = file.length) (hcap : file.length ≤ chunkCap.toNat)
    (hjson : json.Restores ⟨name, 0, size⟩ ⟨name, 0, size, sha256Hex file⟩)
    (hrequest : (json.writeRequest ⟨name, 0, size⟩).length ≤ maxRequest) :
    serveChunk json sha256Hex fs true (json.writeRequest ⟨name, 0, size⟩) configured =
      .ok (json.writeHeader ⟨name, 0, size, sha256Hex file⟩ ++ 10 :: file) := by
  obtain ⟨path, hpath, hread⟩ := hserves
  have hdecode : decodeRequest json (json.writeRequest ⟨name, 0, size⟩) = .ok ⟨name, 0, size⟩ := by
    rw [decodeRequest, if_neg (Nat.not_lt.mpr hrequest)]
    simp only [hjson.reads_request, hsize]
    exact if_neg (Nat.not_lt.mpr hcap)
  have htotal : BitVec.ofNat 64 file.length = size := by
    rw [← hsize, BitVec.ofNat_toNat, BitVec.setWidth_eq]
  have hzero : (0 : BitVec 64).toNat = 0 := rfl
  have hstop : min (0 + min size.toNat chunkCap.toNat) size.toNat - 0 = file.length := by
    rw [hsize]
    omega
  simp only [serveChunk, Bool.not_true, Bool.false_eq_true, if_false, hdecode, hpath, hread, htotal,
    hzero, Nat.not_lt_zero, gt_iff_lt, hstop, slice_all le_rfl, encodeResponse,
    if_neg (Nat.not_lt.mpr hcap)]

end Aldivine.Transfers.Chunks
