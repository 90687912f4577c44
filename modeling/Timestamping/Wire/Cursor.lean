import Timestamping.Wire.Reader

/-!
A place in a byte string. Running a reader there moves the place behind what was read, or leaves it
where it was when the reader fails.
-/

namespace Timestamping

structure Cursor where
  bytes : Bytes
  position : Nat := 0
deriving DecidableEq, Repr

namespace Cursor

def ofBytes (bytes : Bytes) : Cursor := ⟨bytes, 0⟩

def remaining (cursor : Cursor) : Nat :=
  cursor.bytes.length - cursor.position

def rest (cursor : Cursor) : Bytes :=
  cursor.bytes.drop cursor.position

def isAtEnd (cursor : Cursor) : Bool :=
  cursor.remaining == 0

def run {α : Type} (reader : Reader α) (cursor : Cursor) : Except DecodeError α × Cursor :=
  match reader cursor.rest with
  | .ok (value, rest) =>
      (.ok value, { cursor with position := cursor.position + (cursor.remaining - rest.length) })
  | .error error => (.error error, cursor)

theorem length_rest (cursor : Cursor) : cursor.rest.length = cursor.remaining :=
  List.length_drop

/-- What remains behind a read is what the reader left. -/
theorem remaining_run {α : Type} {reader : Reader α} (hReader : reader.TakesFront) {cursor : Cursor}
    {value : α} {rest : Bytes} (h : reader cursor.rest = .ok (value, rest)) :
    (cursor.run reader).2.remaining = rest.length := by
  have hLength := (hReader h).length_le
  rw [length_rest] at hLength
  simp only [run, h]
  unfold remaining at *
  dsimp only
  omega

end Cursor

end Timestamping
