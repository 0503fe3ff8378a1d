/-!
# What can go wrong

A stream refuses with a `StreamError`; the decoder fails with a `Failure`, which
names a cause. The wording of each is in one place (`Failure.message`), and the
causes fall into a few kinds (`Failure.kind`).

* A system error of a stream is wrapped into a failure that says what was being
  read or written (`Failure.ofRead`, `Failure.ofWrite`).
* An objection of the stream's own passes through with its text unchanged.
-/

namespace PackFormat

/-- An error the system reports, with its number if it has one. -/
structure SystemError where
  number : Option Int
  text : String
deriving DecidableEq, Repr

/-- The text of a system error, its number in front. -/
def SystemError.message (e : SystemError) : String :=
  match e.number with
  | some n => "[Errno " ++ toString n ++ "] " ++ e.text
  | none => e.text

/-- Why a stream refuses to read or to write. -/
inductive StreamError
  /-- The system below the stream failed. -/
  | system (error : SystemError)
  /-- The stream itself objects. -/
  | objection (text : String)
deriving DecidableEq, Repr

/-- Causes for which a packed stream is not decoded. -/
inductive Failure
  /-- The header byte asks for no level, or for too many. -/
  | insaneLevels (levels : Nat)
  /-- The level counts add up to more symbols than there are. -/
  | tableOverflow (capacity : Nat)
  /-- The stream ends inside a part of the header. -/
  | truncated (part : String)
  /-- A code past the leaves of its level. -/
  | leafOutOfRange (index level : Nat)
  /-- A code longer than the tree is deep. -/
  | tooDeep
  /-- The payload ends before the stop code. -/
  | noStop (written : Nat)
  /-- The stop code comes, but not after as many bytes as were announced. -/
  | sizeMismatch (written : Nat) (expected : Int)
  /-- The system failed while a part was being read. -/
  | reading (part : String) (error : SystemError)
  /-- The system failed while decoded bytes were being written. -/
  | writing (error : SystemError)
  /-- The system refused to open a file, or to take its last bytes before it is closed. -/
  | system (error : SystemError)
  /-- A stream's own objection. -/
  | objection (text : String)
  /-- More bytes were read ahead than the header byte. -/
  | readAheadTooLong
  /-- Payload cannot be read in chunks of no bytes. -/
  | chunkSizeNotPositive
  /-- A level that the level lists do not reach. -/
  | levelMissing
  /-- A leaf that the symbol table does not reach. -/
  | symbolMissing
  /-- A path with a null byte in it. -/
  | nullInPath
  /-- Nothing where a path should be. -/
  | noPath
  /-- Nothing where the chunk size should be. -/
  | noChunkSize
  /-- A chunk size that no index can reach. -/
  | chunkSizeOverflow
  /-- A chunk that no byte string can hold. -/
  | chunkTooLong
  /-- A chunk that no memory can hold. -/
  | outOfMemory
deriving DecidableEq, Repr

namespace Failure

/-- A refused read of the named part. -/
def ofRead (part : String) : StreamError → Failure
  | .system e => .reading part e
  | .objection text => .objection text

/-- A refused write. -/
def ofWrite : StreamError → Failure
  | .system e => .writing e
  | .objection text => .objection text

/-- The wording of each cause. -/
def message : Failure → String
  | insaneLevels levels => "Huffman tree has insane levels: " ++ toString levels
  | tableOverflow capacity => "Bad symbol table: " ++ toString capacity ++ " symbols > 256"
  | truncated part => "Malformed stream: " ++ part ++ " truncated"
  | leafOutOfRange index level =>
    "File corrupt: leaf " ++ toString index ++ " out of range at level " ++ toString level
  | tooDeep => "File corrupt: code deeper than the tree"
  | noStop written => "Premature EOF: no EOB after " ++ toString written ++ " bytes"
  | sizeMismatch written expected =>
    "Premature EOF: decoded " ++ toString written ++ " bytes, expected " ++ toString expected
  | reading part e => "Error reading " ++ part ++ ": " ++ e.message
  | writing e => "Error writing unpacked data: " ++ e.message
  | system e => e.message
  | objection text => text
  | readAheadTooLong => "at most 1 pre-read header byte(s)"
  | chunkSizeNotPositive => "chunk_size must be positive"
  | levelMissing => "list index out of range"
  | symbolMissing => "index out of range"
  | nullInPath => "embedded null byte"
  | noPath => "expected str, bytes or os.PathLike object, not list"
  | noChunkSize => "'<' not supported between instances of 'list' and 'int'"
  | chunkSizeOverflow => "cannot fit 'int' into an index-sized integer"
  | chunkTooLong => "byte string is too large"
  | outOfMemory => ""

/-- The kinds of failure that a caller tells apart. -/
inductive Kind
  | invalidDepth
  | tableOverflow
  | truncatedHeader
  | corruptCode
  | prematureEnd
  | transport
  /-- A value that was refused before the format had a say. -/
  | badValue
  /-- A hand-made tree whose lists do not fit together. -/
  | outOfRange
  /-- A value that is not there at all. -/
  | noValue
  /-- A number too large for the machine. -/
  | overflow
  | outOfMemory
deriving DecidableEq, Repr

/-- The kind of each cause. -/
def kind : Failure → Kind
  | insaneLevels _ => .invalidDepth
  | tableOverflow _ => .tableOverflow
  | truncated _ => .truncatedHeader
  | leafOutOfRange .. | tooDeep => .corruptCode
  | noStop _ | sizeMismatch .. => .prematureEnd
  | reading .. | writing _ | system _ => .transport
  | objection _ | readAheadTooLong | chunkSizeNotPositive | nullInPath => .badValue
  | levelMissing | symbolMissing => .outOfRange
  | noPath | noChunkSize => .noValue
  | chunkSizeOverflow | chunkTooLong => .overflow
  | outOfMemory => .outOfMemory

/-- **Failures of the format or the transport.** Any other kind is the caller's mistake. -/
def Kind.isDecodeFailure : Kind → Bool
  | .badValue | .outOfRange | .noValue | .overflow | .outOfMemory => false
  | _ => true

end Failure

end PackFormat
