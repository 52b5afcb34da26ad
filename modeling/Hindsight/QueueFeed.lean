import Hindsight.QueueContent

/-!
# Hindsight.QueueFeed

A reader's file and buffer while the queue is still being written. What the queue will hold in the end
is a directory `d` of whole frames; at any time the part up to a position is on disk, since a file is
closed before the next one is created.

* `Dir.upTo`: what is on disk when it ends at a position.
* `Feed`: the unscanned bytes and those not read yet are the frames of the messages ahead.
* `Feed.find`, `Feed.read`, `Feed.move`: what the three operations of a reader do to it.
-/

namespace Hindsight

namespace Dir

variable {d : Dir} {e : Checkpoint} {id : Nat}

/-- The files up to position `e`. -/
def upTo (d : Dir) (e : Checkpoint) : Dir where
  ids := d.ids.filter (· ≤ e.id)
  data id := if id < e.id then d.bytes id else (d.bytes id).take e.offset

theorem mem_upTo : id ∈ (d.upTo e).ids ↔ id ∈ d.ids ∧ id ≤ e.id := by
  simp [upTo]

theorem bytes_upTo (hm : id ∈ (d.upTo e).ids) :
    (d.upTo e).bytes id = if id < e.id then d.bytes id else (d.bytes id).take e.offset :=
  if_pos hm

theorem bytes_upTo_initial (d : Dir) (e : Checkpoint) (id : Nat) :
    (d.upTo e).bytes id <+: d.bytes id := by
  by_cases hm : id ∈ (d.upTo e).ids
  · rw [bytes_upTo hm]
    split
    · exact List.prefix_refl _
    · exact List.take_prefix _ _
  · rw [bytes, if_neg hm]
    exact List.nil_prefix

/-- All of the directory is before `e`. -/
def Ends (d : Dir) (e : Checkpoint) : Prop :=
  ∀ id ∈ d.ids, id < e.id ∨ id = e.id ∧ (d.bytes id).length ≤ e.offset

theorem Ends.mem (h : d.Ends e) : id ∈ (d.upTo e).ids ↔ id ∈ d.ids := by
  rw [mem_upTo]
  refine ⟨And.left, fun hm => ⟨hm, ?_⟩⟩
  rcases h id hm with hlt | ⟨heq, -⟩
  · exact hlt.le
  · exact heq.le

theorem Ends.bytes (h : d.Ends e) (hm : id ∈ d.ids) : (d.upTo e).bytes id = d.bytes id := by
  rw [bytes_upTo (h.mem.mpr hm)]
  rcases h id hm with hlt | ⟨-, hle⟩
  · rw [if_pos hlt]
  · split
    · rfl
    · exact List.take_of_length_le hle

instance (d : Dir) (e : Checkpoint) : Decidable (d.Ends e) :=
  inferInstanceAs (Decidable (∀ id ∈ d.ids, id < e.id ∨ id = e.id ∧ (d.bytes id).length ≤ e.offset))

end Dir

open SandboxLib

/-- A message that is not wholly in the buffer is in it in part. -/
theorem frame_or_part {L : SandboxLib} {pb : List UInt8} {ms : List (List UInt8)} {u : List UInt8}
    (h : u <+: L.frames (pb :: ms)) :
    (∃ u', u = frame L.varint pb ++ u' ∧ u' <+: L.frames ms) ∨
      u <+: frame L.varint pb ∧ u ≠ frame L.varint pb := by
  rw [L.frames_cons] at h
  rcases List.prefix_or_prefix_of_prefix h (List.prefix_append _ _) with hu | hu
  · by_cases heq : u = frame L.varint pb
    · exact .inl ⟨[], by rw [heq, List.append_nil], List.nil_prefix⟩
    · exact .inr ⟨hu, heq⟩
  · obtain ⟨u', rfl⟩ := hu
    exact .inl ⟨u', rfl, (List.prefix_append_right_inj _).mp h⟩

/-- With a whole header in the buffer its length byte is there. -/
theorem lengthByte_header {L : SandboxLib} {ib : InputBuffer} {pb : List UInt8}
    (hpre : ib.unscanned <+: frame L.varint pb) (hhdr : L.headerLength pb ≤ ib.unscanned.length) :
    ib.lengthByte = UInt8.ofNat ((L.varint pb.length).length + 1) := by
  obtain ⟨t, ht⟩ := hpre
  have hget : (ib.unscanned ++ t).getD 1 0 = ib.unscanned.getD 1 0 := by
    have hone : 1 < ib.unscanned.length := by
      unfold SandboxLib.headerLength at hhdr
      omega
    simp [List.getD_eq_getElem?_getD, List.getElem?_append_left hone]
  rw [ht] at hget
  rw [ib.lengthByte_eq, ← hget]
  rfl

/-- With a part of a message in the buffer `hs_read_file` asks for room, and for no more than fits. -/
theorem need_pos {L : SandboxLib} (hL : L.Lawful) {ib : InputBuffer} {pb : List UInt8}
    (hacc : L.accepts pb) (hok : ib.Ok) (hroom : L.initBuffer.size ≤ ib.size)
    (hpre : ib.unscanned <+: frame L.varint pb) (hne : ib.unscanned ≠ frame L.varint pb)
    (hk : L.KnowsLength ib pb) :
    0 < ib.need ∧ ib.unscanned.length + ib.need ≤ max ib.size L.maxsize := by
  have hlen := L.length_frame pb
  have hbound := hL.frame_fits pb hacc
  have hmaxsize := hL.max_lt
  have hlt : ib.unscanned.length < (frame L.varint pb).length :=
    lt_of_le_of_ne hpre.length_le fun heq => hne (hpre.eq_of_length heq)
  rw [SandboxLib.KnowsLength] at hk
  by_cases hhdr : L.headerLength pb ≤ ib.unscanned.length
  · rw [if_pos hhdr] at hk
    have hchar : ib.lengthByte.toNat = (L.varint pb.length).length + 1 := by
      have := hL.length_byte pb hacc
      rw [lengthByte_header hpre hhdr, UInt8.toNat_ofNat', Nat.mod_eq_of_lt (by omega)]
    have hframe : ib.frameLength = (frame L.varint pb).length := by
      rw [InputBuffer.frameLength, hlen, hk, hchar]
      unfold SandboxLib.headerLength InputBuffer.lsbHdrFrameSize
      omega
    have hmax : ullongMax = 2 ^ 64 - 1 := rfl
    have hneed := InputBuffer.need_pending hok (by omega)
      (by rw [hchar]; exact hL.length_byte pb hacc) (by omega) (by omega)
    omega
  · rw [if_neg hhdr] at hk
    have hinit := hL.init_room pb hacc
    have hneed := InputBuffer.need_free hok hk
    have hle := InputBuffer.length_unscanned_le hok
    have hsize := hok.2.2
    omega

/-! ## The invariant of a reader -/

section

variable (L : SandboxLib) (d : Dir)

/-- The reader has file `id` open and took the messages before `off`; `rest` are those after. -/
structure Feed (i : HsInput) (ib : InputBuffer) (id off : Nat) (rest : List (List UInt8)) :
    Prop where
  input : i = .opened ⟨id, off + ib.unscanned.length⟩
  mem : id ∈ d.ids
  bytes : (d.bytes id).drop off = L.frames rest
  accepts : ∀ pb ∈ rest, L.accepts pb
  unscanned : ib.unscanned <+: L.frames rest
  ok : ib.Ok
  room : L.initBuffer.size ≤ ib.size
  known : ∀ pb ms, rest = pb :: ms → L.MayKnow ib pb
  unknown : rest = [] → ib.msglen = 0

/-- The unscanned bytes are no whole message: nothing is left of the file, or a part of its next
message is in the buffer. -/
def Short (ib : InputBuffer) (rest : List (List UInt8)) : Prop :=
  rest = [] ∧ ib.msglen = 0 ∨
    ∃ pb ms, rest = pb :: ms ∧ ib.unscanned <+: frame L.varint pb ∧
      ib.unscanned ≠ frame L.varint pb ∧ L.KnowsLength ib pb

end

section

variable {L : SandboxLib} {d : Dir} {i : HsInput} {ib : InputBuffer} {id off : Nat}
  {rest : List (List UInt8)}

/-- A reader that opened a file at a position where a frame starts, or past the end. -/
theorem feed_start (hib : ib.unscanned = [] ∧ ib.Ok ∧ ib.msglen = 0)
    (hroom : L.initBuffer.size ≤ ib.size) (hm : id ∈ d.ids)
    (hb : (d.bytes id).drop off = L.frames rest) (hacc : ∀ pb ∈ rest, L.accepts pb) :
    Feed L d (.opened ⟨id, off⟩) ib id off rest := by
  obtain ⟨hu, hok, hlen⟩ := hib
  refine ⟨by rw [hu]; rfl, hm, hb, hacc, ?_, hok, hroom, fun _ _ _ => .inl hlen, fun _ => hlen⟩
  rw [hu]
  exact List.nil_prefix

/-- The bytes of the file that were not read yet. -/
theorem Feed.unread (h : Feed L d i ib id off rest) :
    (d.bytes id).drop (off + ib.unscanned.length) = (L.frames rest).drop ib.unscanned.length := by
  rw [← List.drop_drop, h.bytes]

/-- `lsb_find_heka_message` takes the next message, or finds what it has too short. -/
theorem Feed.find (h : Feed L d i ib id off rest) (hL : L.Lawful) :
    (∃ pb ms, rest = pb :: ms ∧ (L.find ib).2 = some pb ∧
        Feed L d i (L.find ib).1 id (off + (frame L.varint pb).length) ms) ∨
      (L.find ib).2 = none ∧ Feed L d i (L.find ib).1 id off rest ∧ Short L (L.find ib).1 rest := by
  cases hrest : rest with
  | nil =>
    have hnil : ib.unscanned = [] := by
      have := h.unscanned
      rw [hrest, L.frames_nil] at this
      exact List.prefix_nil.mp this
    obtain ⟨hf, hh, hm⟩ := hL.find_empty ib h.ok hnil (h.unknown hrest)
    refine .inr ⟨hf, ⟨?_, h.mem, hrest ▸ h.bytes, fun pb hpb => absurd hpb List.not_mem_nil, ?_, hh.ok,
      h.room.trans hh.size, fun pb ms he => (by cases he), fun _ => hm⟩, .inl ⟨rfl, hm⟩⟩
    · rw [h.input, hnil, hh.unscanned]
    · rw [hh.unscanned]
      exact List.nil_prefix
  | cons pb ms =>
    have hacc : L.accepts pb := h.accepts pb (by rw [hrest]; exact List.mem_cons_self)
    have hknown := h.known pb ms hrest
    have hu := h.unscanned
    rw [hrest] at hu
    -- nothing is found: the buffer holds what it held
    have hshort : SandboxLib.Holds ib (L.find ib).1 ib.unscanned →
        ib.unscanned <+: frame L.varint pb → ib.unscanned ≠ frame L.varint pb →
        L.KnowsLength (L.find ib).1 pb →
        Feed L d i (L.find ib).1 id off (pb :: ms) ∧ Short L (L.find ib).1 (pb :: ms) := by
      intro hh hpre hne hk
      refine ⟨⟨?_, h.mem, hrest ▸ h.bytes, hrest ▸ h.accepts, ?_, hh.ok, h.room.trans hh.size,
        fun pb' ms' he => ?_, fun he => (by cases he)⟩, .inr ⟨pb, ms, rfl, ?_, ?_, hk⟩⟩
      · rw [h.input, hh.unscanned]
      · rw [hh.unscanned]
        exact hu
      · cases he
        rw [SandboxLib.MayKnow]
        rw [SandboxLib.KnowsLength] at hk
        rw [hk]
        split
        · exact .inr ⟨by assumption, rfl⟩
        · exact .inl rfl
      · rw [hh.unscanned]
        exact hpre
      · rw [hh.unscanned]
        exact hne
    rcases frame_or_part hu with ⟨u, hu, hu'⟩ | ⟨hpre, hne⟩
    · obtain ⟨hf, hh, hm⟩ := hL.find_whole ib pb u hacc h.ok hknown hu
      refine .inl ⟨pb, ms, rfl, hf, ?_, h.mem, ?_, fun x hx => ?_, ?_, hh.ok, h.room.trans hh.size,
        fun _ _ _ => .inl hm, fun _ => hm⟩
      · rw [h.input, hu, hh.unscanned, List.length_append, Nat.add_assoc]
      · rw [← List.drop_drop, h.bytes, hrest, L.frames_cons, List.drop_left]
      · exact h.accepts x (by rw [hrest]; exact List.mem_cons_of_mem pb hx)
      · rw [hh.unscanned]
        exact hu'
    · refine .inr ?_
      by_cases hnil : ib.unscanned = []
      · have hpos : ¬L.headerLength pb ≤ 0 := by
          unfold SandboxLib.headerLength
          omega
        have hm0 : ib.msglen = 0 := by
          rcases hknown with hk | ⟨hk, -⟩
          · exact hk
          · rw [hnil] at hk
            exact absurd hk hpos
        obtain ⟨hf, hh, hm⟩ := hL.find_empty ib h.ok hnil hm0
        refine ⟨hf, hshort (hnil ▸ hh) hpre hne ?_⟩
        rw [SandboxLib.KnowsLength, hh.unscanned, hm, List.length_nil, if_neg hpos]
      · obtain ⟨hf, hh, hk⟩ := hL.find_part ib pb hacc h.ok hknown hnil hpre hne
        exact ⟨hf, hshort hh hpre hne hk⟩

/-- The bytes a read of at most `n + 1` bytes puts into the expanded buffer. -/
def readInto (L : SandboxLib) (v : Dir) (i : HsInput) (ib : InputBuffer) (n : Nat) :
    HsInput × InputBuffer × List UInt8 :=
  let ib' := L.expand ib ib.need
  let result := hsReadFile v i (min (n + 1) (ib'.size - ib'.readpos))
  (result.1, ib'.append result.2, result.2)

/-- A buffer that is too short asks for no more than fits, and for some room while a message is left. -/
theorem Feed.need_room (h : Feed L d i ib id off rest) (hs : Short L ib rest) (hL : L.Lawful) :
    ib.unscanned.length + ib.need ≤ max ib.size L.maxsize ∧ (rest ≠ [] → 0 < ib.need) := by
  rcases hs with ⟨hnil, hm⟩ | ⟨pb, ms, hr, hpre, hpne, hk⟩
  · have hneed := InputBuffer.need_free h.ok hm
    have hle := InputBuffer.length_unscanned_le h.ok
    have hsize := h.ok.2.2
    exact ⟨by omega, fun hne => absurd hnil hne⟩
  · have hacc := h.accepts pb (by rw [hr]; exact List.mem_cons_self)
    obtain ⟨hpos, hfit⟩ := need_pos hL hacc h.ok h.room hpre hpne hk
    exact ⟨hfit, fun _ => hpos⟩

/-- A read when the buffer is too short. A read that returns nothing has seen all that is on disk of the
file; if that was all of the file, no message is left. -/
theorem Feed.read (h : Feed L d i ib id off rest) (hs : Short L ib rest) (hL : L.Lawful) {v : Dir}
    (hv : v.bytes id <+: d.bytes id) (n : Nat) :
    Feed L d (readInto L v i ib n).1 (readInto L v i ib n).2.1 id off rest ∧
      (readInto L v i ib n).1.cp =
        ⟨id, off + ib.unscanned.length + (readInto L v i ib n).2.2.length⟩ ∧
      ((readInto L v i ib n).2.2 = [] →
        Short L (readInto L v i ib n).2.1 rest ∧ (v.bytes id = d.bytes id → rest = [])) := by
  obtain ⟨hbound, hpos⟩ := h.need_room hs hL
  obtain ⟨hx, hxm, hroom⟩ := hL.expand ib ib.need h.ok hbound
  have hspace : rest ≠ [] → 0 < min (n + 1) ((L.expand ib ib.need).size -
      (L.expand ib ib.need).readpos) := by
    intro hne
    have := hpos hne
    omega
  have hread : readInto L v i ib n =
      (.opened ⟨id, off + ib.unscanned.length + (((v.bytes id).drop (off + ib.unscanned.length)).take
          (min (n + 1) ((L.expand ib ib.need).size - (L.expand ib ib.need).readpos))).length⟩,
        (L.expand ib ib.need).append (((v.bytes id).drop (off + ib.unscanned.length)).take
          (min (n + 1) ((L.expand ib ib.need).size - (L.expand ib ib.need).readpos))),
        ((v.bytes id).drop (off + ib.unscanned.length)).take
          (min (n + 1) ((L.expand ib ib.need).size - (L.expand ib ib.need).readpos))) := by
    rw [readInto, h.input]
    rfl
  have hfit := Nat.min_le_right (n + 1) ((L.expand ib ib.need).size - (L.expand ib ib.need).readpos)
  rw [hread]
  generalize min (n + 1) ((L.expand ib ib.need).size - (L.expand ib ib.need).readpos) = space at *
  generalize hbs : ((v.bytes id).drop (off + ib.unscanned.length)).take space = bs at *
  have hun : ((L.expand ib ib.need).append bs).unscanned = ib.unscanned ++ bs := by
    rw [InputBuffer.unscanned_append hx.ok, hx.unscanned]
  have hlen : bs.length ≤ space := by
    rw [← hbs, List.length_take]
    omega
  have hmsglen : ((L.expand ib ib.need).append bs).msglen = ib.msglen := hxm
  have hunread := h.unread
  -- what was read goes on where the unscanned bytes end
  have hprefix : ib.unscanned ++ bs <+: L.frames rest := by
    obtain ⟨t, ht⟩ := h.unscanned
    rw [← ht, List.drop_left] at hunread
    rw [← ht, ← hbs]
    refine (List.prefix_append_right_inj _).mpr ((List.take_prefix _ _).trans ?_)
    rw [← hunread]
    exact hv.drop _
  refine ⟨⟨?_, h.mem, h.bytes, h.accepts, ?_, ?_, ?_, ?_, ?_⟩, rfl, fun hnil => ⟨?_, fun hall => ?_⟩⟩
  · rw [hun, List.length_append, Nat.add_assoc]
  · rw [hun]
    exact hprefix
  · exact InputBuffer.ok_append hx.ok (hlen.trans hfit)
  · exact h.room.trans hx.size
  · intro pb ms hr
    rcases h.known pb ms hr with hk | ⟨hk, hk'⟩
    · exact .inl (hmsglen.trans hk)
    · refine .inr ⟨?_, hmsglen.trans hk'⟩
      rw [hun, List.length_append]
      omega
  · exact fun hr => hmsglen.trans (h.unknown hr)
  · change bs = [] at hnil
    rw [hnil, List.append_nil] at hun
    rw [hnil]
    rw [hnil] at hmsglen
    unfold Short SandboxLib.KnowsLength at hs ⊢
    rw [hun, hmsglen]
    exact hs
  · change bs = [] at hnil
    by_contra hne
    have hpos := hspace hne
    have hend : (d.bytes id).drop (off + ib.unscanned.length) = [] := by
      rw [hnil, List.take_eq_nil_iff] at hbs
      rcases hbs with hbs | hbs
      · omega
      · rw [← hall]
        exact hbs
    rw [hend] at hunread
    have hle := List.drop_eq_nil_iff.mp hunread.symm
    rcases hs with ⟨hr, -⟩ | ⟨pb, ms, hr, hpre, hpne, -⟩
    · exact hne hr
    · have hlt : ib.unscanned.length < (frame L.varint pb).length :=
        lt_of_le_of_ne hpre.length_le fun heq => hpne (hpre.eq_of_length heq)
      rw [hr, L.frames_cons, List.length_append] at hle
      omega

/-- A reader that has read all of a file and found nothing more has taken all its messages. -/
theorem Feed.rest_eq_nil (h : Feed L d i ib id off rest) (hs : Short L ib rest)
    (hend : (d.bytes id).length ≤ i.cp.offset) : rest = [] := by
  rcases hs with ⟨hr, -⟩ | ⟨pb, ms, hr, hpre, hpne, -⟩
  · exact hr
  · have hcp : i.cp.offset = off + ib.unscanned.length := by rw [h.input]; rfl
    have hunread := h.unread
    rw [← hcp, List.drop_eq_nil_of_le hend] at hunread
    have hle := List.drop_eq_nil_iff.mp hunread.symm
    have hlt : ib.unscanned.length < (frame L.varint pb).length :=
      lt_of_le_of_ne hpre.length_le fun heq => hpne (hpre.eq_of_length heq)
    rw [hr, L.frames_cons, List.length_append] at hle
    omega

/-- With no message left the reader goes on at the start of another file. -/
theorem Feed.move (h : Feed L d i ib id off []) {j : Nat}
    {ms : List (List UInt8)} (hj : j ∈ d.ids) (hb : d.bytes j = L.frames ms)
    (hacc : ∀ pb ∈ ms, L.accepts pb) : Feed L d (.opened ⟨j, 0⟩) ib j 0 ms :=
  feed_start ⟨List.prefix_nil.mp h.unscanned, h.ok, h.unknown rfl⟩ h.room hj hb hacc

end

end Hindsight
