import ChunkCache.Base64
import ChunkCache.Utf8

namespace ChunkCache

/-- Why a buffer or a key could not be decoded. -/
inductive Malformed where
  | base64 (fault : Base64.DecodeError)
  /-- A field holds another number of bytes than its type needs. -/
  | width (expected : Nat) (what : String) (found : Nat)
  /-- A truth value is neither of its two bytes. -/
  | boolField (length : Nat)
  | notUtf8 (fault : Utf8.Fault)
  | negativeCount (raw : Int64)
  | unknownKind (raw : UInt8)
  | missingKeyField (what : String)
  | trailingKeyFields
  /-- A value of several items announces another number of them than it holds. -/
  | itemCount (count perItem found : Nat)
  | recordFields
  | unknownTag (raw : UInt8)
  | noTimelineHeader
  | timelineCount (advertised found : Nat)
  | noDivergencesHeader
  | divergencesEntry
  | seedRange (stored : Int64)
  /-- A cause described by the caller. -/
  | other (detail : String)
  deriving DecidableEq, Repr

def Malformed.message : Malformed → String
  | .base64 fault => s!"invalid base64 field: {fault.message}"
  | .width expected what found => s!"expected {expected} bytes for {what}, got {found}"
  | .boolField length => s!"invalid bool field of {length} bytes"
  | .notUtf8 fault => s!"string field is not UTF-8: {fault.message}"
  | .negativeCount raw => s!"negative length {raw.toInt}"
  | .unknownKind raw => s!"unknown chunk kind {raw.toNat}"
  | .missingKeyField what => s!"coordinate key is missing {what}"
  | .trailingKeyFields => "coordinate key has trailing fields"
  | .itemCount count perItem found =>
    s!"expected {count} items of {perItem} fields, found {found} fields"
  | .recordFields => "attribute record must have exactly three fields"
  | .unknownTag raw => s!"unknown attribute tag {raw.toNat}"
  | .noTimelineHeader => "time tree buffer has no size header"
  | .timelineCount advertised found => s!"time tree advertises {advertised} keys but holds {found}"
  | .noDivergencesHeader => "world order buffer has no header"
  | .divergencesEntry => "world order entry is not a pair"
  | .seedRange stored => s!"seed {stored.toInt} out of range"
  | .other detail => detail

inductive Error where
  /-- No slot could be evicted for a new chunk. -/
  | cacheFull (capacity available : Nat)
  /-- A slot number beyond the cache. -/
  | noSuchSlot (slot capacity : Nat)
  /-- A payload handle out of range, of a vacant cell, or of a slot that was recycled. -/
  | badHandle (handle : Nat)
  /-- A chunk to be discarded has other references. -/
  | stillReferenced (slot : Nat) (mark : Int)
  | wrongKind (expected actual : String)
  | wrongType (key : Int64) (expected actual : String)
  | malformed (cause : Malformed)
  | idsExhausted (idPrefix : Int64)
  | prefixOutOfRange (idPrefix : Int64)
  | unavailable (detail : String)
  | io (detail : String)
  | internal (detail : String)
  deriving DecidableEq, Repr

inductive ResultCode where
  | ok
  | error
  | internal
  | full
  | corrupt
  | mismatch
  | misuse
  | ioError
  deriving DecidableEq, Repr

namespace ResultCode

def name : ResultCode → String
  | .ok => "Ok"
  | .error => "Error"
  | .internal => "Internal"
  | .full => "Full"
  | .corrupt => "Corrupt"
  | .mismatch => "Mismatch"
  | .misuse => "Misuse"
  | .ioError => "IoErr"

def status : ResultCode → Nat
  | .ok => 0
  | .error => 1
  | .internal => 2
  | .ioError => 10
  | .corrupt => 11
  | .full => 13
  | .mismatch => 20
  | .misuse => 21

end ResultCode

namespace Error

def name : Error → String
  | .cacheFull .. => "CapacityExhausted"
  | .noSuchSlot .. => "InvalidSlot"
  | .badHandle .. => "InvalidHandle"
  | .stillReferenced .. => "ChunkInUse"
  | .wrongKind .. => "KindMismatch"
  | .wrongType .. => "TypeMismatch"
  | .malformed .. => "MalformedBuffer"
  | .idsExhausted .. => "KeyGeneratorExhausted"
  | .prefixOutOfRange .. => "InvalidPrefix"
  | .unavailable .. => "Storage"
  | .io .. => "Io"
  | .internal .. => "Internal"

def message : Error → String
  | .cacheFull capacity available =>
    s!"chunk space is full: all {capacity} slots are retained (available: {available}); " ++
      "release chunks or raise the capacity"
  | .noSuchSlot slot capacity => s!"slot {slot} out of range (capacity {capacity})"
  | .badHandle handle => s!"invalid payload handle {handle}"
  | .stillReferenced slot mark => s!"chunk in slot {slot} is still referenced (mark {mark})"
  | .wrongKind expected actual =>
    s!"chunk kind mismatch: expected {expected}, found {actual}"
  | .wrongType key expected actual =>
    s!"type mismatch on attribute {key.toInt}: expected {expected}, got {actual}"
  | .malformed cause => s!"malformed buffer: {cause.message}"
  | .idsExhausted idPrefix => s!"key generator exhausted for prefix {idPrefix.toInt}"
  | .prefixOutOfRange idPrefix => s!"key generator prefix {idPrefix.toInt} out of range"
  | .unavailable detail => s!"storage backend error: {detail}"
  | .io detail => s!"I/O error: {detail}"
  | .internal detail => s!"internal error: {detail}"

def code : Error → ResultCode
  | .cacheFull .. | .idsExhausted .. => .full
  | .noSuchSlot .. | .badHandle .. | .stillReferenced .. | .wrongKind .. | .prefixOutOfRange .. =>
    .misuse
  | .wrongType .. => .mismatch
  | .malformed .. => .corrupt
  | .unavailable .. | .io .. => .ioError
  | .internal .. => .internal

/-- Whether the enclosing operation has to be given up. -/
def isFatal : Error → Bool
  | .cacheFull .. | .idsExhausted .. | .internal .. => true
  | _ => false

/-- Whether the operation may succeed when it is tried again later. -/
def isTransient : Error → Bool
  | .unavailable .. | .io .. => true
  | _ => false

/-- Advice to the caller, for the errors that a caller can avoid. -/
def advice : Error → Option String
  | .cacheFull .. =>
    some "Unmark chunks that are no longer needed or raise the space capacity"
  | .wrongType .. => some "Pass a value whose shape matches the declared type"
  | .malformed .. => some "Only decode buffers produced by the matching chunk encoder"
  | .idsExhausted .. => some "Allocate ids from a fresh prefix"
  | .stillReferenced .. => some "Free a chunk only through its last reference"
  | _ => none

end Error

end ChunkCache
