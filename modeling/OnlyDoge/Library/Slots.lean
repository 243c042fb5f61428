import Mathlib.Data.List.Induction
import Mathlib.Logic.Function.Basic
set_option autoImplicit false

/-!
A store of encoded values under names whose writes may fail before, amid or after their effect.
Where no proper prefix of an encoding decodes it is a store of slots, each of which is absent,
holds the value last written, or is torn.
-/

namespace Slots
variable {κ σ π β : Type}

/-- A write is carried out, is carried out although its answer is lost, ends after some of its
elements, or has no effect. -/
inductive WriteFate where
  | done
  | lost
  | cut (count : Nat)
  | refused
  deriving DecidableEq,Repr

inductive Slot (π : Type) where
  | absent
  | holds (value : π)
  | torn
  deriving DecidableEq,Repr

structure Codec (π β : Type) where
  encode : π → List β
  decode : List β → Option π

structure Codec.Lawful (codec : Codec π β) : Prop where
  decode_encode : ∀ value, codec.decode (codec.encode value) = some value
  decode_cut : ∀ value count, count < (codec.encode value).length →
    codec.decode ((codec.encode value).take count) = none

/-- What a name leads to after a write to it; an atomic store shows nothing of one cut short. -/
def leave (atomic : Bool) (encoded : List β) (fate : WriteFate) (before : Option (List β)) :
    Option (List β) :=
  match fate with
  | .done | .lost => some encoded
  | .cut count => if atomic then before else some (encoded.take count)
  | .refused => before

/-- The slot after a write of a value that takes `size` elements. -/
def Slot.after (atomic : Bool) (size : Nat) (value : π) (fate : WriteFate) (before : Slot π) :
    Slot π :=
  match fate with
  | .done | .lost => .holds value
  | .cut count => if atomic then before else if count < size then .torn else .holds value
  | .refused => before

def Codec.slot (codec : Codec π β) : Option (List β) → Slot π
  | none => .absent
  | some encoded =>
    match codec.decode encoded with
    | some value => .holds value
    | none => .torn

theorem slot_leave {codec : Codec π β} (h : codec.Lawful) (atomic : Bool) (value : π)
    (fate : WriteFate) (before : Option (List β)) :
    codec.slot (leave atomic (codec.encode value) fate before) =
      (codec.slot before).after atomic (codec.encode value).length value fate := by
  cases fate with
  | done => simp [leave,Codec.slot,Slot.after,h.decode_encode]
  | lost => simp [leave,Codec.slot,Slot.after,h.decode_encode]
  | refused => rfl
  | cut count =>
    cases atomic with
    | true => rfl
    | false =>
      by_cases hcount : count < (codec.encode value).length
      · simp [leave,Codec.slot,Slot.after,hcount,h.decode_cut value count hcount]
      · have hwhole := List.take_of_length_le (Nat.le_of_not_lt hcount)
        simp [leave,Codec.slot,Slot.after,hcount,hwhole,h.decode_encode]

structure Write (κ π : Type) where
  key : κ
  value : π
  fate : WriteFate

section
variable [DecidableEq κ] [DecidableEq σ]

def write (codec : Codec π β) (atomic : Bool) (name : κ → σ) (objects : σ → Option (List β))
    (w : Write κ π) : σ → Option (List β) :=
  Function.update objects (name w.key)
    (leave atomic (codec.encode w.value) w.fate (objects (name w.key)))

def writeSlot (size : π → Nat) (atomic : Bool) (slots : κ → Slot π) (w : Write κ π) : κ → Slot π :=
  Function.update slots w.key ((slots w.key).after atomic (size w.value) w.value w.fate)

variable {codec : Codec π β} {atomic : Bool} {name : κ → σ}

theorem slot_write (h : codec.Lawful) (hname : Function.Injective name)
    {objects : σ → Option (List β)} {slots : κ → Slot π}
    (hslots : ∀ k, codec.slot (objects (name k)) = slots k) (w : Write κ π) (k : κ) :
    codec.slot (write codec atomic name objects w (name k)) =
      writeSlot (fun value => (codec.encode value).length) atomic slots w k := by
  unfold write writeSlot
  by_cases hk : k = w.key
  · rw [hk,Function.update_self,Function.update_self,slot_leave h,hslots]
  · rw [Function.update_of_ne hk,Function.update_of_ne (hname.ne hk),hslots]

/-- The names of different keys are apart, so the objects are the slots in every history. -/
theorem slot_writes (h : codec.Lawful) (hname : Function.Injective name) (writes : List (Write κ π))
    {objects : σ → Option (List β)} {slots : κ → Slot π}
    (hslots : ∀ k, codec.slot (objects (name k)) = slots k) (k : κ) :
    codec.slot (writes.foldl (write codec atomic name) objects (name k)) =
      writes.foldl (writeSlot (fun value => (codec.encode value).length) atomic) slots k := by
  induction writes generalizing objects slots with
  | nil => exact hslots k
  | cons w writes ih => exact ih (slot_write h hname hslots w)

def Write.leaves (atomic : Bool) (w : Write κ π) : Bool :=
  match w.fate with
  | .done | .lost => true
  | .cut _ => !atomic
  | .refused => false

def Write.isTorn (size : Nat) (w : Write κ π) : Bool :=
  match w.fate with
  | .cut count => decide (count < size)
  | _ => false

def Write.isWhole (w : Write κ π) : Bool :=
  match w.fate with
  | .done | .lost => true
  | .cut _ | .refused => false

omit [DecidableEq κ] in
theorem Write.leaves_of_isWhole {w : Write κ π} (h : w.isWhole = true) :
    w.leaves atomic = true := by
  obtain ⟨key,value,fate⟩ := w
  cases fate <;> simp_all [Write.isWhole,Write.leaves]

omit [DecidableEq κ] in
theorem Write.isWhole_of_leaves {w : Write κ π} (h : w.leaves true = true) :
    w.isWhole = true := by
  obtain ⟨key,value,fate⟩ := w
  cases fate <;> simp_all [Write.isWhole,Write.leaves]

omit [DecidableEq κ] in
theorem Write.isTorn_of_isWhole {w : Write κ π} (h : w.isWhole = true) (size : Nat) :
    w.isTorn size = false := by
  obtain ⟨key,value,fate⟩ := w
  cases fate <;> simp_all [Write.isWhole,Write.isTorn]

def lastWrite (atomic : Bool) (k : κ) (writes : List (Write κ π)) : Option (Write κ π) :=
  (writes.filter fun w => w.key = k && w.leaves atomic).getLast?

def Write.slot (size : π → Nat) (w : Write κ π) : Slot π :=
  if w.isTorn (size w.value) then .torn else .holds w.value

omit [DecidableEq κ] in
theorem after_eq (size : π → Nat) (atomic : Bool) (w : Write κ π) (before : Slot π) :
    before.after atomic (size w.value) w.value w.fate =
      if w.leaves atomic then w.slot size else before := by
  obtain ⟨key,value,fate⟩ := w
  cases fate <;> simp [Slot.after,Write.leaves,Write.slot,Write.isTorn]
  cases atomic <;> simp

theorem writeSlot_eq (size : π → Nat) (atomic : Bool) (slots : κ → Slot π) (w : Write κ π) (k : κ) :
    writeSlot size atomic slots w k =
      if w.key = k ∧ w.leaves atomic then w.slot size else slots k := by
  unfold writeSlot
  by_cases hk : k = w.key
  · rw [← hk,Function.update_self,after_eq]
    simp
  · have hother : w.key ≠ k := fun h => hk h.symm
    rw [Function.update_of_ne hk]
    simp [hother]

theorem foldl_writeSlot (size : π → Nat) (atomic : Bool) (writes : List (Write κ π)) (k : κ) :
    writes.foldl (writeSlot size atomic) (fun _ => .absent) k =
      (lastWrite atomic k writes).elim .absent (Write.slot size) := by
  induction writes using List.reverseRecOn with
  | nil => rfl
  | append_singleton writes w ih =>
    rw [List.foldl_append,List.foldl_cons,List.foldl_nil,writeSlot_eq,ih,lastWrite,lastWrite,
      List.filter_append]
    by_cases hw : w.key = k ∧ w.leaves atomic
    · simp [hw]
    · have hdropped : (decide (w.key = k) && w.leaves atomic) = false := by simpa using hw
      simp [hw,hdropped]

/-- In a store that was empty, a slot is what the last write that left something made of it. -/
theorem slot_lastWrite (h : codec.Lawful) (hname : Function.Injective name)
    (writes : List (Write κ π)) (k : κ) :
    codec.slot (writes.foldl (write codec atomic name) (fun _ => none) (name k)) =
      (lastWrite atomic k writes).elim .absent
        (Write.slot fun value => (codec.encode value).length) := by
  have hslots : ∀ k, codec.slot ((fun _ => none : σ → Option (List β)) (name k)) =
    (fun _ => .absent : κ → Slot π) k := fun _ => rfl
  rw [slot_writes h hname writes hslots,foldl_writeSlot]

end

end Slots
