/-!
# Byte readers

A device that delivers a sequence of bytes piece by piece. Reads may be cut short,
interrupted, or fail, as a script of coming reads says; once the script is over, a read
delivers all there is room for.
-/
namespace Copione

inductive ReadEvent where
  /-- Delivers at most `limit` bytes, at least one. -/
  | deliver (limit : Nat)
  | interrupted
  | failed (reason : String)
  deriving DecidableEq, Repr

/-- A device: the bytes it will deliver, what its next reads do, and why reads fail once the
bytes are gone, if they do. -/
structure Reader where
  bytes : List UInt8
  script : List ReadEvent
  failure : Option String
  deriving DecidableEq, Repr

/-- The answer to one read; no bytes mean the end of input. -/
inductive ReadResult where
  | piece (bytes : List UInt8)
  | interrupted
  | failed (reason : String)
  deriving DecidableEq, Repr

namespace Reader

def ofBytes (bytes : List UInt8) : Reader := ⟨bytes, [], none⟩

/-- A device with a rhythm: pieces of at most `limit` bytes, each after an interruption if
`interrupting`, and a breakdown after `lifetime` bytes. -/
def paced (bytes : List UInt8) (limit : Option Nat) (interrupting : Bool)
    (lifetime : Option (Nat × String)) : Reader :=
  let piece := ReadEvent.deliver (limit.getD bytes.length)
  let turn := if interrupting then [.interrupted, piece] else [piece]
  let script := (List.replicate (bytes.length + 1) turn).flatten
  match lifetime with
  | some (count, reason) =>
    if count ≤ bytes.length then ⟨bytes.take count, script, some reason⟩
    else ⟨bytes, script, none⟩
  | none => ⟨bytes, script, none⟩

def deliver (count : Nat) (r : Reader) : ReadResult × Reader :=
  match r.bytes, r.failure with
  | [], some reason => (.failed reason, r)
  | bytes, _ => (.piece (bytes.take count), { r with bytes := bytes.drop count })

def read (room : Nat) (r : Reader) : ReadResult × Reader :=
  match r.script with
  | [] => r.deliver room
  | .deliver limit :: script => { r with script }.deliver (min (max limit 1) room)
  | .interrupted :: script => (.interrupted, { r with script })
  | .failed reason :: script => (.failed reason, { r with script })

/-- A bound on the reads before the device has nothing new to say. -/
def span (r : Reader) : Nat := r.script.length + r.bytes.length

end Reader
end Copione
