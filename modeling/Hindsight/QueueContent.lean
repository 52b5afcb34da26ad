import Hindsight.InputBuffer
import Hindsight.Lib.Span

/-!
# Hindsight.QueueContent

What a queue directory holds when no writer changes it: `msgs id` are the messages of file `id`,
each in a whole frame.

* `deliveries c`: the messages from a position on, each with the position of its end.
* `Boundary c`: a position at the start or the end of a frame of an existing file.
* `boundary_of_delivery`: the end of each message is such a position, and what comes from there on
  are the messages after it.
-/

namespace Hindsight

namespace SandboxLib

variable (L : SandboxLib)

def frames (ms : List (List UInt8)) : List UInt8 := ms.flatMap (frame L.varint)

@[simp] theorem frames_nil : L.frames [] = [] := rfl

@[simp] theorem frames_cons (pb : List UInt8) (ms : List (List UInt8)) :
    L.frames (pb :: ms) = frame L.varint pb ++ L.frames ms := rfl

@[simp] theorem frames_append (ms ns : List (List UInt8)) :
    L.frames (ms ++ ns) = L.frames ms ++ L.frames ns := List.flatMap_append

theorem frames_eq_nil {ms : List (List UInt8)} (h : L.frames ms = []) : ms = [] := by
  cases ms with
  | nil => rfl
  | cons pb ms => exact absurd (List.append_eq_nil_iff.mp h).1 (frame_ne_nil _ _)

/-- The messages of a file that start at `off` or later. -/
def restFrom : Nat → List (List UInt8) → List (List UInt8)
  | 0, ms => ms
  | _, [] => []
  | off + 1, pb :: ms => restFrom (off + 1 - (frame L.varint pb).length) ms

theorem restFrom_frames (done rest : List (List UInt8)) :
    L.restFrom (L.frames done).length (done ++ rest) = rest := by
  induction done with
  | nil => cases rest <;> rfl
  | cons pb done ih =>
    have hpos : 0 < (frame L.varint pb).length := List.length_pos_iff.mpr (frame_ne_nil _ _)
    obtain ⟨n, hn⟩ : ∃ n, (L.frames (pb :: done)).length = n + 1 :=
      ⟨(L.frames (pb :: done)).length - 1, by
        rw [frames_cons, List.length_append]
        omega⟩
    have hsub : n + 1 - (frame L.varint pb).length = (L.frames done).length := by
      rw [← hn, frames_cons, List.length_append]
      omega
    rw [hn, List.cons_append, restFrom, hsub, ih]

theorem mem_restFrom {off : Nat} {ms : List (List UInt8)} {pb : List UInt8}
    (h : pb ∈ L.restFrom off ms) : pb ∈ ms := by
  fun_induction restFrom L off ms with
  | case1 => exact h
  | case2 => exact h
  | case3 off pb' ms ih => exact List.mem_cons_of_mem pb' (ih h)

theorem restFrom_past {off : Nat} {ms : List (List UInt8)} (h : (L.frames ms).length ≤ off) :
    L.restFrom off ms = [] := by
  fun_induction restFrom L off ms with
  | case1 ms => exact L.frames_eq_nil (List.eq_nil_of_length_eq_zero (Nat.le_zero.mp h))
  | case2 => rfl
  | case3 off pb ms ih =>
    rw [L.frames_cons, List.length_append] at h
    exact ih (by omega)

/-- Messages of file `id` from offset `off` on, with the positions of their ends. -/
def endPositions (id : Nat) : Nat → List (List UInt8) → List (List UInt8 × Checkpoint)
  | _, [] => []
  | off, pb :: ms =>
    let stop := off + (frame L.varint pb).length
    (pb, ⟨id, stop⟩) :: endPositions id stop ms

end SandboxLib

namespace QueueContent

/-- The files hold whole frames of messages the library takes, and are no larger than `fseek` can reach. -/
structure Whole (L : SandboxLib) (d : Dir) (msgs : Nat → List (List UInt8)) : Prop where
  bytes : ∀ id ∈ d.ids, d.bytes id = L.frames (msgs id)
  accepts : ∀ id ∈ d.ids, ∀ pb ∈ msgs id, L.accepts pb
  size : ∀ id ∈ d.ids, (d.bytes id).length < 2 ^ 63

section

variable (L : SandboxLib) (d : Dir) (msgs : Nat → List (List UInt8))

def fileDeliveries (id : Nat) : List (List UInt8 × Checkpoint) :=
  if id ∈ d.ids then L.endPositions id 0 (msgs id) else []

/-- The messages of the files after `id`. -/
def later (id : Nat) : List (List UInt8 × Checkpoint) :=
  Span.concat (fileDeliveries L d msgs) (id + 1) (findLastId d - id)

/-- The messages from `c` on with the positions of their ends. -/
def deliveries (c : Checkpoint) : List (List UInt8 × Checkpoint) :=
  L.endPositions c.id c.offset (L.restFrom c.offset (msgs c.id)) ++ later L d msgs c.id

def Boundary (c : Checkpoint) : Prop :=
  c.id ∈ d.ids ∧ ∃ done rest, msgs c.id = done ++ rest ∧ c.offset = (L.frames done).length

end

variable {L : SandboxLib} {d : Dir} {msgs : Nat → List (List UInt8)}

theorem deliveries_boundary {id : Nat} {done rest : List (List UInt8)}
    (h : msgs id = done ++ rest) :
    deliveries L d msgs ⟨id, (L.frames done).length⟩ =
      L.endPositions id (L.frames done).length rest ++ later L d msgs id := by
  rw [deliveries, h, L.restFrom_frames]

/-- The next file there is comes next. -/
theorem later_next {id j : Nat} (hj : j ∈ d.ids) (hij : id < j)
    (hleast : ∀ i ∈ d.ids, id < i → j ≤ i) :
    later L d msgs id = L.endPositions j 0 (msgs j) ++ later L d msgs j := by
  have hgap : ∀ k, id < k → k < j → fileDeliveries L d msgs k = [] := by
    intro k hk hkj
    refine if_neg fun hm => ?_
    have := hleast k hm hk
    omega
  have hfile : fileDeliveries L d msgs j = L.endPositions j 0 (msgs j) := if_pos hj
  rw [later, Span.concat_next hij (le_findLastId d hj) hgap, hfile]
  rfl

theorem later_nil {id : Nat} (h : ∀ i ∈ d.ids, i ≤ id) : later L d msgs id = [] := by
  refine Span.concat_nil (fun j hj => if_neg fun hm => ?_) _
  have := h j hm
  omega

/-- Where a file's deliveries stand, its rest and the later files follow. -/
theorem boundary_of_endPositions {id : Nat} (hid : id ∈ d.ids) {done rest : List (List UInt8)}
    (h : msgs id = done ++ rest) {k : Nat} {m : List UInt8} {c : Checkpoint}
    (hk : (L.endPositions id (L.frames done).length rest)[k]? = some (m, c)) :
    Boundary L d msgs c ∧ deliveries L d msgs c =
      (L.endPositions id (L.frames done).length rest).drop (k + 1) ++ later L d msgs id := by
  induction rest generalizing done k with
  | nil => cases hk
  | cons pb rest ih =>
    have hdone : msgs id = (done ++ [pb]) ++ rest := by rw [h, List.append_assoc]; rfl
    have hstop : (L.frames done).length + (frame L.varint pb).length =
        (L.frames (done ++ [pb])).length := by
      rw [L.frames_append, List.length_append, L.frames_cons, L.frames_nil, List.append_nil]
    rw [SandboxLib.endPositions, hstop] at hk ⊢
    cases k with
    | zero =>
      cases hk
      exact ⟨⟨hid, _, _, hdone, rfl⟩, deliveries_boundary hdone⟩
    | succ k => exact ih hdone hk

theorem drop_succ_append {α : Type*} {as bs : List α} {k : Nat} (h : as.length ≤ k) :
    (as ++ bs).drop (k + 1) = bs.drop (k - as.length + 1) := by
  rw [List.drop_append, List.drop_eq_nil_of_le (by omega), List.nil_append]
  congr 1
  omega

theorem boundary_of_span {i n : Nat} (hn : i + n = findLastId d + 1) {k : Nat} {m : List UInt8}
    {c : Checkpoint} (hk : (Span.concat (fileDeliveries L d msgs) i n)[k]? = some (m, c)) :
    Boundary L d msgs c ∧ deliveries L d msgs c =
      (Span.concat (fileDeliveries L d msgs) i n).drop (k + 1) := by
  induction n generalizing i k with
  | zero => cases hk
  | succ n ih =>
    have hrest : Span.concat (fileDeliveries L d msgs) (i + 1) n = later L d msgs i := by
      rw [later]
      congr 1
      omega
    rw [Span.concat_succ] at hk ⊢
    by_cases hlt : k < (fileDeliveries L d msgs i).length
    · rw [List.getElem?_append_left hlt] at hk
      have hi : i ∈ d.ids := by
        by_contra hi
        rw [fileDeliveries, if_neg hi] at hlt
        exact absurd hlt (Nat.not_lt_zero _)
      have hfile : fileDeliveries L d msgs i =
          L.endPositions i (L.frames []).length (msgs i) := if_pos hi
      rw [hfile] at hk
      obtain ⟨hb, hd⟩ := boundary_of_endPositions hi (List.nil_append _).symm hk
      refine ⟨hb, ?_⟩
      rw [hd, hrest, List.drop_append_of_le_length (by omega), hfile]
    · have hge : (fileDeliveries L d msgs i).length ≤ k := by omega
      rw [List.getElem?_append_right hge] at hk
      obtain ⟨hb, hd⟩ := ih (by omega) hk
      exact ⟨hb, by rw [hd, drop_succ_append hge]⟩

/-- A reader that starts at the end of the `k`-th message has the messages after it ahead. -/
theorem boundary_of_delivery {c : Checkpoint} (hc : Boundary L d msgs c) {k : Nat}
    {m : List UInt8} {c' : Checkpoint} (hk : (deliveries L d msgs c)[k]? = some (m, c')) :
    Boundary L d msgs c' ∧ deliveries L d msgs c' = (deliveries L d msgs c).drop (k + 1) := by
  obtain ⟨hid, done, rest, hmsgs, hoff⟩ := hc
  obtain ⟨id, offset⟩ := c
  simp only at hid hmsgs hoff
  subst hoff
  rw [deliveries_boundary hmsgs] at hk ⊢
  by_cases hlt : k < (L.endPositions id (L.frames done).length rest).length
  · rw [List.getElem?_append_left hlt] at hk
    obtain ⟨hb, hd⟩ := boundary_of_endPositions hid hmsgs hk
    exact ⟨hb, by rw [hd, List.drop_append_of_le_length (by omega)]⟩
  · have hge : (L.endPositions id (L.frames done).length rest).length ≤ k := by omega
    rw [List.getElem?_append_right hge] at hk
    have hle := le_findLastId d hid
    obtain ⟨hb, hd⟩ := boundary_of_span (by omega) hk
    exact ⟨hb, by rw [hd, drop_succ_append hge, later]⟩

end QueueContent

end Hindsight
