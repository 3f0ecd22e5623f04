import Lexis.Text.Utf8

/-! A place to write to that may run out of room.
Texts are written in order, as bytes. The first text that does not fit is cut where the room ends,
and nothing is written after it. -/
namespace Lexis

inductive WriteFault where
  | outOfRoom
deriving DecidableEq, Repr

def WriteFault.message : WriteFault → String
  | outOfRoom => "failed to write whole buffer"

/-- What has been written, and how many more bytes there is room for, if there is a limit. -/
structure Sink where
  written : List UInt8
  room : Option Nat
deriving DecidableEq, Repr

namespace Sink

def empty (limit : Option Nat) : Sink := ⟨[], limit⟩

def writeBytes (s : Sink) (bytes : List UInt8) : Except WriteFault Unit × Sink :=
  match s.room with
  | none => (.ok (), ⟨s.written ++ bytes, none⟩)
  | some room =>
    if bytes.length ≤ room then (.ok (), ⟨s.written ++ bytes, some (room - bytes.length)⟩)
    else (.error .outOfRoom, ⟨s.written ++ bytes.take room, some 0⟩)

def writeAll (s : Sink) : List String → Except WriteFault Unit × Sink
  | [] => (.ok (), s)
  | text :: texts =>
    match s.writeBytes (Text.utf8 text) with
    | (.error fault, s) => (.error fault, s)
    | (.ok (), s) => s.writeAll texts

theorem writeBytes_of_le {written bytes : List UInt8} {room : Nat} (h : bytes.length ≤ room) :
    writeBytes ⟨written, some room⟩ bytes =
      (.ok (), ⟨written ++ bytes, some (room - bytes.length)⟩) :=
  if_pos h

theorem writeBytes_of_lt {written bytes : List UInt8} {room : Nat} (h : room < bytes.length) :
    writeBytes ⟨written, some room⟩ bytes =
      (.error .outOfRoom, ⟨written ++ bytes.take room, some 0⟩) :=
  if_neg (Nat.not_le.2 h)

theorem writeBytes_nil (s : Sink) : s.writeBytes [] = (.ok (), s) := by
  obtain ⟨written, room⟩ := s
  cases room with
  | none => rw [writeBytes, List.append_nil]
  | some room =>
    rw [writeBytes_of_le (Nat.zero_le _), List.append_nil, List.length_nil, Nat.sub_zero]

/-- Behind bytes that fit, the writing goes on. -/
theorem writeBytes_append_of_ok {s t : Sink} {front : List UInt8}
    (h : s.writeBytes front = (.ok (), t)) (back : List UInt8) :
    s.writeBytes (front ++ back) = t.writeBytes back := by
  obtain ⟨written, room⟩ := s
  cases room with
  | none =>
    obtain ⟨-, rfl⟩ := Prod.mk.inj h
    rw [writeBytes, writeBytes, List.append_assoc]
  | some room =>
    rcases Nat.lt_or_ge room front.length with hlt | hle
    · rw [writeBytes_of_lt hlt] at h
      cases h
    · rw [writeBytes_of_le hle] at h
      obtain ⟨-, rfl⟩ := Prod.mk.inj h
      -- What `front` leaves is enough for `back` exactly if there is room for both.
      rcases Nat.lt_or_ge (room - front.length) back.length with hlt | hback
      · have htotal : room < (front ++ back).length := by
          rw [List.length_append]
          omega
        rw [writeBytes_of_lt htotal, writeBytes_of_lt hlt, List.take_append,
          List.take_of_length_le hle, List.append_assoc]
      · have htotal : (front ++ back).length ≤ room := by
          rw [List.length_append]
          omega
        rw [writeBytes_of_le htotal, writeBytes_of_le hback, List.length_append, Nat.sub_sub,
          List.append_assoc]

/-- What stands behind bytes that are cut makes no difference. -/
theorem writeBytes_append_of_error {s t : Sink} {front : List UInt8} {fault : WriteFault}
    (h : s.writeBytes front = (.error fault, t)) (back : List UInt8) :
    s.writeBytes (front ++ back) = (.error fault, t) := by
  obtain ⟨written, room⟩ := s
  cases room with
  | none => cases h
  | some room =>
    rcases Nat.lt_or_ge room front.length with hlt | hle
    · have htotal : room < (front ++ back).length := by
        rw [List.length_append]
        omega
      rw [← h, writeBytes_of_lt hlt, writeBytes_of_lt htotal,
        List.take_append_of_le_length (Nat.le_of_lt hlt)]
    · rw [writeBytes_of_le hle] at h
      cases h

/-- Texts are written as if they were one. How this one is cut into texts makes no difference. -/
theorem writeAll_eq_writeBytes (s : Sink) (texts : List String) :
    s.writeAll texts = s.writeBytes (Text.utf8 (String.join texts)) := by
  induction texts generalizing s with
  | nil => exact (writeBytes_nil s).symm
  | cons text texts ih =>
    rw [writeAll, String.join_cons, Text.utf8_append]
    rcases htext : s.writeBytes (Text.utf8 text) with ⟨result, t⟩
    cases result with
    | error fault => rw [writeBytes_append_of_error htext]
    | ok => rw [writeBytes_append_of_ok htext, ← ih]

/-- Without a limit all texts are written, one behind the other. -/
theorem writeAll_of_unlimited (written : List UInt8) (texts : List String) :
    writeAll ⟨written, none⟩ texts =
      (.ok (), ⟨written ++ Text.utf8 (String.join texts), none⟩) :=
  writeAll_eq_writeBytes _ texts

end Sink

end Lexis
