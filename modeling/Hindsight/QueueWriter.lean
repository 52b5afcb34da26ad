import Hindsight.Lib.Run
import Hindsight.Lib.Span
import Hindsight.Lib.Varint
import Hindsight.Output

/-!
# Hindsight.QueueWriter

What injections leave in a queue directory. The writer starts at the last file of the directory and
appends a frame for each message, in the order in which the `inject_message` functions got the lock;
stdio may hand buffered bytes to the file at any time.

* `Complete`: after a flush the files from the start file on hold what the start file held, then one
  frame for each message, and no frame is in two files.
* `splitFrames_frames`: the frames are found again by their header lengths.
* `writer_complete`: holds after every run that makes no roll-over at the largest file id.
* `writer_wraps`: a roll-over at the largest id goes on in file 0.
-/

namespace Hindsight

namespace QueueWriter

/-- The frames of messages one after the other; lengths are varints. -/
def frames (pbs : List (List UInt8)) : List UInt8 := pbs.flatMap (frame Varint.encode)

inductive Event where
  | inject (pb : List UInt8)
  | spill (n : Nat)
  deriving DecidableEq, Repr

/-- An empty message makes the second `fwrite` of `inject_message` return 0, which ends the
process. -/
def step (cfg : HsConfig) (o : Output) : Event → Option Output
  | .inject pb => if pb = [] then none else some (appendFrame cfg Varint.encode o pb)
  | .spill n => some (o.spill n)

def injected (es : List Event) : List (List UInt8) :=
  es.filterMap fun
    | .inject pb => some pb
    | .spill _ => none

/-- No roll-over at the largest id. -/
def Admits (cfg : HsConfig) (o : Output) : Event → Prop
  | .inject pb =>
    o.cp.offset + (frame Varint.encode pb).length ≥ cfg.outputSize → o.cp.id < ullongMax
  | .spill _ => True

/-! ## Reading the frames back -/

/-- A frame at the start of the bytes, by its header lengths: the message and the bytes after it. -/
def readFrame : List UInt8 → Option (List UInt8 × List UInt8)
  | rs :: hlen :: bs =>
    match bs.take hlen.toNat, bs.drop hlen.toNat with
    | tag :: v, us :: body =>
      if rs = 0x1e ∧ tag = 0x08 ∧ us = 0x1f then
        match Varint.decode v with
        | some (n, []) => if n ≤ body.length then some (body.take n, body.drop n) else none
        | _ => none
      else none
    | _, _ => none
  | _ => none

/-- At most `fuel` frames. -/
def splitFrames : Nat → List UInt8 → Option (List (List UInt8))
  | _, [] => some []
  | 0, _ => none
  | fuel + 1, bs => (readFrame bs).bind fun p => (splitFrames fuel p.2).map (p.1 :: ·)

theorem readFrame_frame {pb : List UInt8} (h : pb.length < 2 ^ 30) (rest : List UInt8) :
    readFrame (frame Varint.encode pb ++ rest) = some (pb, rest) := by
  have hlen : (Varint.encode pb.length).length ≤ 5 :=
    Varint.length_encode_le (by decide) (h.trans (by decide))
  have hbyte : (UInt8.ofNat ((Varint.encode pb.length).length + 1)).toNat =
      (Varint.encode pb.length).length + 1 := by
    rw [UInt8.toNat_ofNat', Nat.mod_eq_of_lt (by omega)]
  have hframe : frame Varint.encode pb ++ rest = 0x1e ::
      UInt8.ofNat ((Varint.encode pb.length).length + 1) ::
        ((0x08 :: Varint.encode pb.length) ++ (0x1f :: (pb ++ rest))) := by
    simp [frame]
  have hdec := Varint.decode_encode pb.length []
  rw [List.append_nil] at hdec
  have htake : ((0x08 :: Varint.encode pb.length) ++ (0x1f :: (pb ++ rest))).take
      ((Varint.encode pb.length).length + 1) = 0x08 :: Varint.encode pb.length :=
    List.take_left' rfl
  have hdrop : ((0x08 :: Varint.encode pb.length) ++ (0x1f :: (pb ++ rest))).drop
      ((Varint.encode pb.length).length + 1) = 0x1f :: (pb ++ rest) :=
    List.drop_left' rfl
  rw [hframe]
  simp only [readFrame, hbyte, htake, hdrop, hdec, and_self, if_true, List.length_append,
    Nat.le_add_right, List.take_left, List.drop_left]

theorem splitFrames_frames {pbs : List (List UInt8)} (h : ∀ pb ∈ pbs, pb.length < 2 ^ 30)
    {fuel : Nat} (hfuel : pbs.length ≤ fuel) : splitFrames fuel (frames pbs) = some pbs := by
  induction pbs generalizing fuel with
  | nil => cases fuel <;> rfl
  | cons pb pbs ih =>
    obtain ⟨n, rfl⟩ : ∃ n, fuel = n + 1 := ⟨fuel - 1, by rw [List.length_cons] at hfuel; omega⟩
    have hne : frames (pb :: pbs) ≠ [] := by
      rw [frames, List.flatMap_cons]
      exact fun hn => frame_ne_nil _ _ (List.append_eq_nil_iff.mp hn).1
    have hread : readFrame (frames (pb :: pbs)) = some (pb, frames pbs) := by
      rw [frames, List.flatMap_cons]
      exact readFrame_frame (h pb List.mem_cons_self) _
    have hrest := ih (fun x hx => h x (List.mem_cons_of_mem pb hx)) (Nat.le_of_succ_le_succ hfuel)
    cases hbs : frames (pb :: pbs) with
    | nil => exact absurd hbs hne
    | cons b bs =>
      rw [splitFrames, ← hbs, hread, Option.bind_some, hrest, Option.map_some]
      exact List.cons_ne_nil _ _

theorem length_le_frames (pbs : List (List UInt8)) : pbs.length ≤ (frames pbs).length := by
  induction pbs with
  | nil => exact Nat.zero_le _
  | cons pb pbs ih =>
    have := List.length_pos_iff.mpr (frame_ne_nil Varint.encode pb)
    rw [frames, List.flatMap_cons, List.length_append, List.length_cons]
    rw [frames] at ih
    omega

/-! ## The invariant -/

/-- What file `id` held at the start; only the start file counts. -/
def held (d : Dir) (id : Nat) : List UInt8 := if id = findLastId d then d.bytes id else []

/-- The queue counting the bytes still in the buffer: the messages `pbs` were injected, and `g id` are
those in file `id`. -/
structure Inv (cfg : HsConfig) (d : Dir) (pbs : List (List UInt8)) (o : Output) : Prop where
  fh : o.fh = some o.cp.id
  offset : o.cp.offset = (o.full o.cp.id).length
  start_le : findLastId d ≤ o.cp.id
  mem : o.cp.id ∈ o.dir.ids
  top : ∀ id ∈ o.dir.ids, id ≤ o.cp.id
  closed : ∀ id, findLastId d ≤ id → id < o.cp.id → cfg.outputSize ≤ (o.full id).length
  groups : ∃ g : Nat → List (List UInt8),
    Span.concat g (findLastId d) (o.cp.id - findLastId d + 1) = pbs ∧
      (∀ id, o.cp.id < id → g id = []) ∧
      ∀ id, findLastId d ≤ id → o.full id = held d id ++ frames (g id)

section

variable {cfg : HsConfig} {d : Dir} {pbs : List (List UInt8)} {o o' : Output}

theorem Inv.isOpen (hI : Inv cfg d pbs o) : o.Open := ⟨o.cp.id, hI.mem, hI.fh⟩

/-- Nothing but the bytes on disk changed. -/
theorem Inv.congr (hI : Inv cfg d pbs o) (hfh : o'.fh = o.fh) (hcp : o'.cp = o.cp)
    (hids : o'.dir.ids = o.dir.ids) (hfull : ∀ id, o'.full id = o.full id) : Inv cfg d pbs o' := by
  refine ⟨?_, ?_, ?_, ?_, ?_, ?_, ?_⟩
  · rw [hfh, hcp]
    exact hI.fh
  · rw [hcp, hfull]
    exact hI.offset
  · rw [hcp]
    exact hI.start_le
  · rw [hcp, hids]
    exact hI.mem
  · rw [hcp, hids]
    exact hI.top
  · simp only [hcp, hfull]
    exact hI.closed
  · simp only [hcp, hfull]
    exact hI.groups

theorem Inv.spill (hI : Inv cfg d pbs o) (n : Nat) : Inv cfg d pbs (o.spill n) :=
  hI.congr (Output.fh_spill o n) (Output.cp_spill o n) (Output.ids_spill o n)
    (Output.full_spill hI.isOpen n)

/-- The frame goes to the end of the current file. -/
theorem Inv.groups_append (hI : Inv cfg d pbs o) (pb : List UInt8) :
    ∃ g : Nat → List (List UInt8),
      Span.concat g (findLastId d) (o.cp.id - findLastId d + 1) = pbs ++ [pb] ∧
        (∀ id, o.cp.id < id → g id = []) ∧
        ∀ id, findLastId d ≤ id →
          (o.fwrite (frame Varint.encode pb)).full id = held d id ++ frames (g id) := by
  obtain ⟨g, hg, hnil, hfull⟩ := hI.groups
  have hid : findLastId d + (o.cp.id - findLastId d) = o.cp.id := Nat.add_sub_of_le hI.start_le
  refine ⟨Function.update g o.cp.id (g o.cp.id ++ [pb]), ?_, fun id hlt => ?_, fun id hle => ?_⟩
  · have := Span.concat_update_last g (findLastId d) (o.cp.id - findLastId d) [pb]
    rwa [hid, hg] at this
  · rw [Function.update_of_ne (Nat.ne_of_gt hlt)]
    exact hnil id hlt
  · rw [Output.full_fwrite, hfull id hle, hI.fh]
    by_cases h : id = o.cp.id
    · rw [h, if_pos rfl, Function.update_self, List.append_assoc]
      congr 1
      simp [frames]
    · rw [Function.update_of_ne h, if_neg fun he => h (Option.some.inj he).symm, List.append_nil]

theorem inv_start (cfg : HsConfig) (d : Dir) : Inv cfg d [] (hsInitOutput d) := by
  have hfull : ∀ id, (hsInitOutput d).full id = d.bytes id := by
    intro id
    simp [hsInitOutput, hsOpenOutputFile, Output.full, Output.fopen, Output.fclose, Output.fflush,
      Output.spill]
  refine ⟨rfl, (congrArg List.length (hfull (findLastId d))).symm, le_rfl, Dir.mem_create _ _,
    fun id hid => ?_, fun id hle hlt => absurd hle (Nat.not_le_of_lt hlt), fun _ => [], ?_,
    fun _ _ => rfl, fun id hle => ?_⟩
  · rcases Dir.mem_ids_create.mp hid with hid | rfl
    · exact le_findLastId d hid
    · exact le_rfl
  · exact Span.concat_nil (fun _ _ => rfl) _
  · rw [hfull, held]
    split
    · exact (List.append_nil _).symm
    · refine if_neg fun hid => ?_
      have := le_findLastId d hid
      omega

/-- The frame is appended and the offset moved past it. -/
theorem Inv.append (hI : Inv cfg d pbs o) (pb : List UInt8) :
    Inv cfg d (pbs ++ [pb]) { o.fwrite (frame Varint.encode pb) with
      cp := ⟨o.cp.id, o.cp.offset + (frame Varint.encode pb).length⟩ } := by
  have hlen : ((o.fwrite (frame Varint.encode pb)).full o.cp.id).length =
      o.cp.offset + (frame Varint.encode pb).length := by
    rw [Output.full_fwrite, hI.fh, if_pos rfl, List.length_append, hI.offset]
  refine ⟨hI.fh, hlen.symm, hI.start_le, hI.mem, hI.top, fun id hle hlt => ?_, hI.groups_append pb⟩
  change cfg.outputSize ≤ ((o.fwrite (frame Varint.encode pb)).full id).length
  rw [Output.full_fwrite, hI.fh, if_neg fun he => Nat.ne_of_lt hlt (Option.some.inj he).symm,
    List.append_nil]
  exact hI.closed id hle hlt

/-- A roll-over of a file that is full goes on in an empty file. -/
theorem Inv.roll (hI : Inv cfg d pbs o) (hsize : cfg.outputSize ≤ o.cp.offset)
    (hmax : o.cp.id < ullongMax) :
    Inv cfg d pbs (hsOpenOutputFile { o with cp := ⟨(o.cp.id + 1) % 2 ^ 64, o.cp.offset⟩ }) := by
  have hid : (o.cp.id + 1) % 2 ^ 64 = o.cp.id + 1 := by
    have hlt : ullongMax = 2 ^ 64 - 1 := rfl
    exact Nat.mod_eq_of_lt (by omega)
  rw [hid]
  have hopen : ({ o with cp := ⟨o.cp.id + 1, o.cp.offset⟩ } : Output).Open := ⟨o.cp.id, hI.mem, hI.fh⟩
  have hfull : ∀ id, (hsOpenOutputFile { o with cp := ⟨o.cp.id + 1, o.cp.offset⟩ }).full id = o.full id :=
    full_hsOpenOutputFile hopen
  have hempty : o.full (o.cp.id + 1) = [] := by
    have hnone : o.cp.id + 1 ∉ o.dir.ids := fun hm => by
      have := hI.top _ hm
      omega
    rw [Output.full, hI.fh, if_neg (by simp), List.append_nil, Dir.bytes, if_neg hnone]
  have hcp := cp_hsOpenOutputFile hopen
  change _ = (⟨o.cp.id + 1, (o.full (o.cp.id + 1)).length⟩ : Checkpoint) at hcp
  rw [hempty] at hcp
  obtain ⟨g, hg, hnil, hgfull⟩ := hI.groups
  have hle := hI.start_le
  refine ⟨?_, ?_, ?_, ?_, ?_, ?_, g, ?_, ?_, ?_⟩
  · rw [fh_hsOpenOutputFile, hcp]
  · rw [hfull, hcp, hempty]
  · rw [hcp]
    exact hle.trans (Nat.le_succ _)
  · rw [hcp]
    exact mem_ids_hsOpenOutputFile.mpr (.inr rfl)
  · intro id hm
    rw [hcp]
    rcases mem_ids_hsOpenOutputFile.mp hm with hm | rfl
    · exact (hI.top id hm).trans (Nat.le_succ _)
    · exact le_rfl
  · intro id hle hlt
    rw [hcp] at hlt
    rw [hfull]
    rcases Nat.lt_succ_iff_lt_or_eq.mp hlt with hlt | rfl
    · exact hI.closed id hle hlt
    · rw [← hI.offset]
      exact hsize
  · rw [hcp]
    have hsub : o.cp.id + 1 - findLastId d = o.cp.id - findLastId d + 1 := by omega
    have hlast : findLastId d + (o.cp.id - findLastId d + 1) = o.cp.id + 1 := by omega
    rw [hsub, Span.concat_succ_last, hg, hlast, hnil _ (Nat.lt_succ_self _), List.append_nil]
  · intro id hlt
    rw [hcp] at hlt
    exact hnil id (Nat.lt_of_succ_lt hlt)
  · intro id hle
    rw [hfull]
    exact hgfull id hle

/-- One frame more, in the current file, and a roll-over when that is full. -/
theorem Inv.inject (hI : Inv cfg d pbs o) {pb : List UInt8} (hadm : Admits cfg o (.inject pb)) :
    Inv cfg d (pbs ++ [pb]) (appendFrame cfg Varint.encode o pb) := by
  have hI' := hI.append pb
  simp only [appendFrame]
  split
  · rename_i hroll
    exact hI'.roll hroll (hadm hroll)
  · exact hI'

theorem run_inv {es : List Event} (hI : Inv cfg d pbs o)
    (hne : ∀ pb ∈ injected es, pb ≠ []) (hadm : Runs.Meets (step cfg) (Admits cfg) o es) :
    ∃ o', Runs.run (step cfg) o es = some o' ∧ Inv cfg d (pbs ++ injected es) o' := by
  induction es generalizing o pbs with
  | nil => exact ⟨o, rfl, (List.append_nil pbs).symm ▸ hI⟩
  | cons e es ih =>
    cases e with
    | inject pb =>
      have hpb : pb ≠ [] := hne pb List.mem_cons_self
      have hstep : step cfg o (.inject pb) = some (appendFrame cfg Varint.encode o pb) := if_neg hpb
      obtain ⟨hc, hrest⟩ := hadm _ hstep
      obtain ⟨o', hr, hI'⟩ := ih (hI.inject hc) (fun x hx => hne x (List.mem_cons_of_mem pb hx)) hrest
      refine ⟨o', by simp only [Runs.run, hstep, hr], ?_⟩
      rw [List.append_assoc] at hI'
      exact hI'
    | spill n =>
      exact ih (hI.spill n) hne (hadm _ rfl).2

/-! ## After a flush -/

/-- The queue holds what the start file held and the messages `pbs`, each in a frame. -/
structure Complete (cfg : HsConfig) (d : Dir) (pbs : List (List UInt8)) (o : Output) : Prop where
  bytes : Span.concat o.dir.bytes (findLastId d) (o.cp.id + 1 - findLastId d) =
    d.bytes (findLastId d) ++ frames pbs
  split : splitFrames (frames pbs).length
    ((Span.concat o.dir.bytes (findLastId d) (o.cp.id + 1 - findLastId d)).drop
      (d.bytes (findLastId d)).length) = some pbs
  groups : ∃ g : Nat → List (List UInt8),
    Span.concat g (findLastId d) (o.cp.id + 1 - findLastId d) = pbs ∧
      ∀ id, findLastId d ≤ id → o.dir.bytes id = held d id ++ frames (g id)
  closed : ∀ id, findLastId d ≤ id → id < o.cp.id → cfg.outputSize ≤ (o.dir.bytes id).length
  last : o.cp.id ∈ o.dir.ids ∧ ∀ id ∈ o.dir.ids, id ≤ o.cp.id
  offset : o.cp.offset = (o.dir.bytes o.cp.id).length

theorem Inv.complete (hI : Inv cfg d pbs o) (hlen : ∀ pb ∈ pbs, pb.length < 2 ^ 30) :
    Complete cfg d pbs o.fflush := by
  have hbytes : ∀ id, o.fflush.dir.bytes id = o.full id := Output.bytes_fflush hI.isOpen
  have hcp : o.fflush.cp = o.cp := Output.cp_spill o _
  have hids : o.fflush.dir.ids = o.dir.ids := Output.ids_spill o _
  have hn : o.cp.id + 1 - findLastId d = o.cp.id - findLastId d + 1 := by
    have := hI.start_le
    omega
  obtain ⟨g, hg, -, hfull⟩ := hI.groups
  have hall : Span.concat o.fflush.dir.bytes (findLastId d) (o.cp.id + 1 - findLastId d) =
      d.bytes (findLastId d) ++ frames pbs := by
    have hrest : Span.concat o.fflush.dir.bytes (findLastId d + 1) (o.cp.id - findLastId d) =
        Span.concat (fun id => frames (g id)) (findLastId d + 1) (o.cp.id - findLastId d) := by
      refine Span.concat_congr fun id hle _ => ?_
      rw [hbytes, hfull id (by omega), held, if_neg (by omega), List.nil_append]
    rw [hn, Span.concat_succ, hrest, hbytes, hfull _ le_rfl, held, if_pos rfl, List.append_assoc,
      ← Span.concat_succ (fun id => frames (g id)), ← hg, frames, ← Span.concat_flatMap]
    rfl
  rw [← hcp] at hall
  refine ⟨hall, ?_, ⟨g, ?_, fun id hle => (hbytes id).trans (hfull id hle)⟩, fun id hle hlt => ?_,
    ⟨?_, ?_⟩, ?_⟩
  · rw [hall, List.drop_left]
    exact splitFrames_frames hlen (length_le_frames pbs)
  · rw [hcp, hn]
    exact hg
  · rw [hbytes]
    exact hI.closed id hle (hcp ▸ hlt)
  · rw [hcp, hids]
    exact hI.mem
  · rw [hcp, hids]
    exact hI.top
  · rw [hcp, hbytes]
    exact hI.offset

end

/-- Injections of non-empty messages go through, and after a flush the queue holds what the start file
held and one frame for each message, as long as no roll-over is made at the largest file id. -/
theorem writer_complete (cfg : HsConfig) (d : Dir) (es : List Event)
    (hpbs : ∀ pb ∈ injected es, pb ≠ [] ∧ pb.length < 2 ^ 30)
    (hadm : Runs.Meets (step cfg) (Admits cfg) (hsInitOutput d) es) :
    ∃ o, Runs.run (step cfg) (hsInitOutput d) es = some o ∧
      Complete cfg d (injected es) o.fflush := by
  obtain ⟨o, hr, hI⟩ := run_inv (inv_start cfg d) (fun pb hpb => (hpbs pb hpb).1) hadm
  exact ⟨o, hr, hI.complete fun pb hpb => (hpbs pb hpb).2⟩

/-- Three messages into an empty directory; the first two fill a file. -/
theorem writer_complete_rolled :
    ∃ o, Runs.run (step ⟨12, 0, 0⟩) (hsInitOutput ⟨[], fun _ => []⟩)
        [.inject [1, 2], .spill 4, .inject [3], .inject [4]] = some o ∧
      Complete ⟨12, 0, 0⟩ ⟨[], fun _ => []⟩ [[1, 2], [3], [4]] o.fflush := by
  refine writer_complete ⟨12, 0, 0⟩ ⟨[], fun _ => []⟩
    [.inject [1, 2], .spill 4, .inject [3], .inject [4]] (by decide) ?_
  rintro _ ⟨⟩
  refine ⟨fun _ => by decide, ?_⟩
  rintro _ ⟨⟩
  refine ⟨trivial, ?_⟩
  rintro _ ⟨⟩
  refine ⟨fun _ => by decide, ?_⟩
  rintro _ ⟨⟩
  exact ⟨fun _ => by decide, trivial⟩

/-- The writer closes the file with the largest id and goes on in file 0. -/
theorem writer_wraps :
    ¬ ∀ (cfg : HsConfig) (d : Dir) (es : List Event), (∀ id ∈ d.ids, id ≤ ullongMax) →
      (∀ pb ∈ injected es, pb ≠ [] ∧ pb.length < 2 ^ 30) →
        ∃ o, Runs.run (step cfg) (hsInitOutput d) es = some o ∧
          Complete cfg d (injected es) o.fflush := by
  intro h
  obtain ⟨o, hr, hc⟩ := h ⟨1, 0, 0⟩ ⟨[ullongMax], fun _ => []⟩ [.inject [1]] (by decide) (by decide)
  cases hr
  have hlast := hc.last.2 ullongMax (by decide)
  revert hlast
  decide

end QueueWriter

end Hindsight
