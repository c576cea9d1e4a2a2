import RustStd.Lib.Fallible
import RustStd.Lib.Machine

/-!
# Writers

An inner writer is foreign code with a state of its own. A lawful one accepts no
more than it is offered; whatever else it answers, short counts, nothing at all
or an error, is its own affair.
-/

set_option autoImplicit false

namespace RustStd.Io
open RustStd.Machine

inductive ErrorKind
  | interrupted
  | writeZero
  | unexpectedEof
  | outOfMemory
  | invalidInput
  | other
  deriving DecidableEq, Repr

structure IoError where
  kind : ErrorKind
  message : String
  deriving DecidableEq, Repr

def IoError.isInterrupted (e : IoError) : Bool := e.kind = .interrupted

structure Write (σ : Type) where
  write : σ → List UInt8 → Except IoError ℕ × σ
  writeVectored : σ → List (List UInt8) → Except IoError ℕ × σ
  isWriteVectored : σ → Bool
  flush : σ → Except IoError Unit × σ

variable {σ : Type}

structure Lawful (W : Write σ) : Prop where
  write : ∀ w bytes n, (W.write w bytes).1 = .ok n → n ≤ bytes.length
  writeVectored : ∀ w bufs n, (W.writeVectored w bufs).1 = .ok n →
    n ≤ bufs.flatten.length ∧ n ≤ usizeMax

def Patient (W : Write σ) : Prop :=
  ∀ w bytes e, (W.write w bytes).1 = .error e → e.isInterrupted = false

def Generous (W : Write σ) : Prop := ∀ w bytes, (W.write w bytes).1 = .ok bytes.length

def saturatingAdd (a b : ℕ) : ℕ := min (a+b) usizeMax

end RustStd.Io

/-! ## Seekable streams

An inner reader is foreign code over a fixed content with a position. A lawful
one delivers the bytes from its position on, nothing only at the end of the
content, and moves by as much as it delivers. A call that fails leaves the
position where it was.
-/

namespace RustStd.Io

inductive SeekFrom
  | start (n : ℕ)
  | fromEnd (n : ℤ)
  | current (n : ℤ)

structure Read (ρ : Type) where
  read : ρ → ℕ → Except IoError (List UInt8) × ρ
  /-- Into room for so many bytes, some of them initialized: the bytes filled in
  and how many are initialized afterwards. -/
  readBuf : ρ → ℕ → ℕ → Except IoError Unit × List UInt8 × ℕ × ρ
  readVectored : ρ → List ℕ → Except IoError (List UInt8) × ρ
  /-- The bytes appended, also before an error. -/
  readToEnd : ρ → Except IoError ℕ × List UInt8 × ρ
  seek : ρ → SeekFrom → Except IoError ℕ × ρ
  streamPosition : ρ → Except IoError ℕ × ρ

/-- What a read into room for `len` bytes may deliver at position `p`. -/
structure Delivers (content : List UInt8) (p len : ℕ) (bytes : List UInt8) : Prop where
  isPrefix : bytes <+: content.drop p
  length_le : bytes.length ≤ len
  atEnd : bytes = [] → len = 0 ∨ content.length ≤ p

/-- Where a seek goes from position `p`. -/
def SeekFrom.target (content : List UInt8) (p : ℕ) : SeekFrom → ℤ
  | .start n => n
  | .fromEnd n => content.length+n
  | .current n => p+n

variable {ρ : Type}

structure Seekable (R : Read ρ) (content : List UInt8) (position : ρ → ℕ) : Prop where
  read : ∀ w len, match R.read w len with
    | (.ok bytes, w') =>
      Delivers content (position w) len bytes ∧ position w' = position w+bytes.length
    | (.error _, w') => position w' = position w
  readBuf : ∀ w room init, init ≤ room → match R.readBuf w room init with
    | (.ok _, bytes, init', w') => Delivers content (position w) room bytes ∧
        position w' = position w+bytes.length ∧ bytes.length ≤ init' ∧ init ≤ init' ∧ init' ≤ room
    | (.error _, bytes, init', w') =>
      bytes = [] ∧ position w' = position w ∧ init ≤ init' ∧ init' ≤ room
  readVectored : ∀ w lens, match R.readVectored w lens with
    | (.ok bytes, w') =>
      Delivers content (position w) lens.sum bytes ∧ position w' = position w+bytes.length
    | (.error _, w') => position w' = position w
  readToEnd : ∀ w, match R.readToEnd w with
    | (.ok n, bytes, w') => bytes = content.drop (position w) ∧ n = bytes.length ∧
        position w' = position w+bytes.length
    | (.error _, bytes, w') =>
      bytes <+: content.drop (position w) ∧ position w' = position w+bytes.length
  seek : ∀ w pos, match R.seek w pos with
    | (.ok r, w') => (position w' : ℤ) = pos.target content (position w) ∧ r = position w'
    | (.error _, w') => position w' = position w
  streamPosition : ∀ w, match R.streamPosition w with
    | (.ok r, w') => r = position w ∧ position w' = position w
    | (.error _, w') => position w' = position w

structure PatientRead (R : Read ρ) : Prop where
  read : ∀ w len e, (R.read w len).1 = .error e → e.isInterrupted = false
  readBuf : ∀ w room init e, (R.readBuf w room init).1 = .error e → e.isInterrupted = false

end RustStd.Io
