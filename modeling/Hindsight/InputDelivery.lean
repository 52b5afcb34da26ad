import Hindsight.Lib.WriteAhead
import Hindsight.Pipeline

/-!
# Hindsight.InputDelivery

The checkpoints of the input plugins against the input queue. An observer numbers the calls of
`inject_message` and keeps, for `p->cp` of each plugin, for its value in the store and for its
value in `hindsight.cp`, the call that supplied it. A call without a message owns nothing.

* `Safe`: a call that owns a persisted checkpoint has its message on disk.
* `Admits`: when the input queue is flushed, no plugin is still between the two critical sections
  of the call whose checkpoint was copied; and a plugin whose thread ends between that flush and
  the end of the pass has its last message on disk.
* `input_safe`: a run keeps `Safe` if all its steps are admitted.
-/

namespace Hindsight

namespace InputDelivery

/-- `current i` is the call of plugin `i` between its critical sections, `place c` where the frame
of call `c` was written. -/
structure Ledger where
  calls : Nat
  current : Nat → Option Nat
  owner : Nat → Option Nat
  stored : Nat → Option Nat
  persisted : Nat → Option Nat
  place : Nat → Option Output.Written

namespace Ledger

def empty : Ledger := ⟨0, fun _ => none, fun _ => none, fun _ => none, fun _ => none, fun _ => none⟩

variable {δ : Type}

/-- The first critical section of a call. A rejected checkpoint, or none at all, leaves the
checkpoint with the call that owned it. -/
def inject (l : Ledger) (i : Nat) (p : InputPlugin δ) (pb : Option (List UInt8)) (d : Option δ)
    (s : Option (List UInt8)) : Ledger :=
  let ok := (p.cp.updateCheckpoint d s).2
  let id := if pb.isSome then some l.calls else none
  { l with
    calls := l.calls + 1
    owner := if ok && (d.isSome || s.isSome) then Function.update l.owner i id else l.owner
    current := Function.update l.current i (if ok then id else none) }

def append (l : Ledger) (i : Nat) (w : Output.Written) : Ledger :=
  match l.current i with
  | some c =>
    { l with
      place := Function.update l.place c (some w)
      current := Function.update l.current i none }
  | none => l

def store (l : Ledger) (i : Nat) : Ledger :=
  { l with stored := Function.update l.stored i (l.owner i) }

end Ledger

variable {δ : Type} (cfg : HsConfig) (varint : Nat → List UInt8) (shape : Shape)

/-- The observer. -/
def see (s : Service δ) (l : Ledger) : ServiceEvent δ → Ledger
  | .inject i pb d str =>
    match s.inputs i with
    | some p => l.inject i p pb d str
    | none => l
  | .append i _ =>
    match s.inputs i with
    | some ⟨_, some pb⟩ => l.append i (s.inputQueue.next (frame varint pb))
    | _ => l
  | .inputExit i => l.store i
  | .write =>
    match s.pc with
    | .inputStats i => if i < shape.inputCap ∧ (s.inputs i).isSome then l.store i else l
    | .persist => { l with persisted := l.stored }
    | _ => l
  | _ => l

abbrev State (δ : Type) := Service δ × Ledger

def step : State δ → ServiceEvent δ → Option (State δ) :=
  Runs.observe (Service.step cfg varint shape) (see varint shape)

/-- The message of a call is in the files of the input queue. -/
def Durable (o : Output) (l : Ledger) (c : Nat) : Prop := ∃ w, l.place c = some w ∧ o.OnDisk w

def Safe (s : State δ) : Prop := ∀ i c, s.2.persisted i = some c → Durable s.1.inputQueue s.2 c

def Admits (s : State δ) : ServiceEvent δ → Prop
  | .write => s.1.pc = .inputFlush → ∀ i c, s.2.stored i = some c → s.2.current i ≠ some c
  | .inputExit i =>
    s.1.pc.pastFlush = true →
      ∀ c w, s.2.owner i = some c → s.2.place c = some w → s.1.inputQueue.OnDisk w
  | _ => True

def dirty (pc : WriterPc) : Set Nat := {_i | pc.pastFlush = false}

structure Inv (s : Service δ) (l : Ledger) : Prop where
  isOpen : s.inputQueue.Open
  placed : ∀ c w, l.place c = some w → c < l.calls ∧ s.inputQueue.InQueue w
  fresh : ∀ i c, l.current i = some c → c < l.calls ∧ l.place c = none
  distinct : ∀ i j c, l.current i = some c → l.current j = some c → i = j
  busy : ∀ i c, l.current i = some c → ∃ cp pb, s.inputs i = some ⟨cp, some pb⟩
  call : ∀ i cp pb, s.inputs i = some ⟨cp, some pb⟩ → l.current i ≠ none
  owner : ∀ i c, l.owner i = some c → l.current i = some c ∨ l.place c ≠ none
  stored : ∀ i c, l.stored i = some c → l.current i = some c ∨ l.place c ≠ none
  ahead : WriteAhead.Ahead {c | Durable s.inputQueue l c} (fun i => {c | l.stored i = some c})
    (fun i => {c | l.persisted i = some c}) (dirty s.pc)

section

variable {cfg : HsConfig} {varint : Nat → List UInt8} {shape : Shape} {s s' : Service δ}
  {l : Ledger}

theorem durable_mono {o o' : Output} (h : Output.Grows o o') :
    {c | Durable o l c} ⊆ {c | Durable o' l c} := by
  rintro c ⟨w, hw, hd⟩
  exact ⟨w, hw, hd.mono h⟩

/-- Steps of the other threads, and those of the writer that touch no input checkpoint. -/
theorem frame_inv (hI : Inv s l) (hopen : s'.inputQueue.Open)
    (hgrows : Output.Grows s.inputQueue s'.inputQueue) (hinputs : s'.inputs = s.inputs)
    (hdirty : dirty s.pc ⊆ dirty s'.pc) : Inv s' l where
  isOpen := hopen
  placed c w hw := ⟨(hI.placed c w hw).1, (hI.placed c w hw).2.mono hgrows⟩
  fresh := hI.fresh
  distinct := hI.distinct
  busy := by rw [hinputs]; exact hI.busy
  call := by rw [hinputs]; exact hI.call
  owner := hI.owner
  stored := hI.stored
  ahead := (hI.ahead.grow (durable_mono hgrows)).weaken hdirty

/-- A call that goes on after its first critical section gets the next number. -/
theorem current_inject {i : Nat} {p : InputPlugin δ} {pb : Option (List UInt8)} {d : Option δ}
    {str : Option (List UInt8)} :
    (l.inject i p pb d str).current i =
      (p.injectMessage pb d str).call.map fun _ => l.calls := by
  simp only [Ledger.inject, InputPlugin.injectMessage, Function.update_self]
  cases (p.cp.updateCheckpoint d str).2 <;> cases pb <;> rfl

theorem owner_inject {i : Nat} {p : InputPlugin δ} {pb : Option (List UInt8)} {d : Option δ}
    {str : Option (List UInt8)} {j c : Nat} (h : (l.inject i p pb d str).owner j = some c) :
    l.owner j = some c ∨ j = i ∧ (l.inject i p pb d str).current i = some c := by
  simp only [Ledger.inject, Function.update_self] at h ⊢
  cases hok : (p.cp.updateCheckpoint d str).2 with
  | false => simpa [hok] using h
  | true =>
    simp only [hok, Bool.true_and, if_true] at h ⊢
    split at h
    · by_cases hj : j = i
      · subst hj
        rw [Function.update_self] at h
        exact .inr ⟨rfl, h⟩
      · rw [Function.update_of_ne hj] at h
        exact .inl h
    · exact .inl h

theorem inject_inv {i : Nat} {p : InputPlugin δ} {pb : Option (List UInt8)} {d : Option δ}
    {str : Option (List UInt8)} (hI : Inv s l) (hp : s.inputs i = some p) (hcall : p.call = none) :
    Inv { s with inputs := Function.update s.inputs i (some (p.injectMessage pb d str)) }
      (l.inject i p pb d str) := by
  have hidle : ∀ c, l.current i ≠ some c := by
    intro c hc
    obtain ⟨cp, pb', h⟩ := hI.busy i c hc
    rw [hp] at h
    cases h
    cases hcall
  have hnew : ∀ c, (l.inject i p pb d str).current i = some c → c = l.calls := by
    intro c hc
    rw [current_inject, Option.map_eq_some_iff] at hc
    obtain ⟨_, -, rfl⟩ := hc
    rfl
  have hold : ∀ j, j ≠ i → (l.inject i p pb d str).current j = l.current j :=
    fun j hj => Function.update_of_ne hj _ _
  have hplaced : ∀ {j c}, l.current j = some c ∨ l.place c ≠ none →
      (l.inject i p pb d str).current j = some c ∨ l.place c ≠ none := by
    rintro j c (h | h)
    · refine .inl ?_
      rw [hold j fun hj => hidle c (hj ▸ h)]
      exact h
    · exact .inr h
  refine ⟨hI.isOpen, fun c w hw => ⟨Nat.lt_succ_of_lt (hI.placed c w hw).1, (hI.placed c w hw).2⟩,
    ?_, ?_, ?_, ?_, ?_, fun j c hc => hplaced (hI.stored j c hc), hI.ahead⟩
  · intro j c hc
    by_cases hj : j = i
    · subst hj
      obtain rfl := hnew c hc
      refine ⟨Nat.lt_succ_self _, Option.eq_none_iff_forall_not_mem.mpr fun w hw => ?_⟩
      exact absurd (hI.placed _ w hw).1 (lt_irrefl _)
    · rw [hold j hj] at hc
      exact ⟨Nat.lt_succ_of_lt (hI.fresh j c hc).1, (hI.fresh j c hc).2⟩
  · intro j k c hj hk
    by_cases hji : j = i <;> by_cases hki : k = i
    · rw [hji, hki]
    · subst hji
      rw [hold k hki] at hk
      have := (hI.fresh k c hk).1
      rw [hnew c hj] at this
      exact absurd this (lt_irrefl _)
    · subst hki
      rw [hold j hji] at hj
      have := (hI.fresh j c hj).1
      rw [hnew c hk] at this
      exact absurd this (lt_irrefl _)
    · rw [hold j hji] at hj
      rw [hold k hki] at hk
      exact hI.distinct j k c hj hk
  · intro j c hc
    by_cases hj : j = i
    · subst hj
      rw [current_inject, Option.map_eq_some_iff] at hc
      obtain ⟨pb', hpb, -⟩ := hc
      exact ⟨(p.injectMessage pb d str).cp, pb', by simp [← hpb]⟩
    · rw [hold j hj] at hc
      simpa [hj] using hI.busy j c hc
  · intro j cp pb' hj
    by_cases hji : j = i
    · subst hji
      simp only [Function.update_self, Option.some.injEq] at hj
      rw [current_inject, hj]
      simp
    · rw [hold j hji]
      simp only [Function.update_of_ne hji] at hj
      exact hI.call j cp pb' hj
  · intro j c hc
    rcases owner_inject hc with h | ⟨rfl, h⟩
    · exact hplaced (hI.owner j c h)
    · exact .inl h

/-- The second critical section: the frame of the call is in the queue, at a place of its own. -/
theorem append_inv {i : Nat} {cp : IpCheckpoint δ} {pb : List UInt8} {bp : Backpressure}
    (hI : Inv s l) (hp : s.inputs i = some ⟨cp, some pb⟩) :
    Inv { s with
      inputQueue := appendFrame cfg varint s.inputQueue pb
      inputBp := bp
      inputs := Function.update s.inputs i (some ⟨cp, none⟩) }
      (l.append i (s.inputQueue.next (frame varint pb))) := by
  obtain ⟨c₀, hc₀⟩ := Option.ne_none_iff_exists'.mp (hI.call i cp pb hp)
  obtain ⟨hlt, hnone⟩ := hI.fresh i c₀ hc₀
  have hgrows : Output.Grows s.inputQueue (appendFrame cfg varint s.inputQueue pb) :=
    grows_append hI.isOpen pb
  have hother : ∀ j c, j ≠ i → l.current j = some c → c ≠ c₀ := by
    rintro j c hj hc rfl
    exact hj (hI.distinct j i c hc hc₀)
  have hplaced : ∀ {j c}, l.current j = some c ∨ l.place c ≠ none →
      Function.update l.current i none j = some c ∨
        Function.update l.place c₀ (some (s.inputQueue.next (frame varint pb))) c ≠ none := by
    intro j c h
    by_cases hc : c = c₀
    · subst hc
      simp
    · rw [Function.update_of_ne hc]
      refine h.imp (fun h => ?_) id
      rw [Function.update_of_ne]
      · exact h
      · rintro rfl
        rw [hc₀] at h
        cases h
        exact hc rfl
  simp only [Ledger.append, hc₀]
  refine ⟨open_appendFrame hI.isOpen pb, ?_, ?_, ?_, ?_, ?_, fun j c hc => hplaced (hI.owner j c hc),
    fun j c hc => hplaced (hI.stored j c hc), hI.ahead.grow ?_⟩
  · intro c w hw
    by_cases hc : c = c₀
    · subst hc
      simp only [Function.update_self, Option.some.injEq] at hw
      subst hw
      exact ⟨hlt, inQueue_appendFrame hI.isOpen pb⟩
    · simp only [Function.update_of_ne hc] at hw
      exact ⟨(hI.placed c w hw).1, (hI.placed c w hw).2.mono hgrows⟩
  · intro j c hc
    by_cases hj : j = i
    · subst hj
      simp at hc
    · simp only [Function.update_of_ne hj] at hc
      simp only [Function.update_of_ne (hother j c hj hc)]
      exact hI.fresh j c hc
  · intro j k c hj hk
    by_cases hji : j = i
    · subst hji
      simp at hj
    · by_cases hki : k = i
      · subst hki
        simp at hk
      · simp only [Function.update_of_ne hji, Function.update_of_ne hki] at hj hk
        exact hI.distinct j k c hj hk
  · intro j c hc
    by_cases hj : j = i
    · subst hj
      simp at hc
    · simp only [Function.update_of_ne hj] at hc ⊢
      exact hI.busy j c hc
  · intro j cp' pb' hj
    by_cases hji : j = i
    · subst hji
      simp at hj
    · simp only [Function.update_of_ne hji] at hj ⊢
      exact hI.call j cp' pb' hj
  · rintro c ⟨w, hw, hd⟩
    refine ⟨w, ?_, hd.mono hgrows⟩
    have hc : c ≠ c₀ := by
      rintro rfl
      rw [hnone] at hw
      cases hw
    simp only [Function.update_of_ne hc]
    exact hw

/-- A checkpoint may go into the store at any time before the flush of a pass, and after it when
its message is on disk. -/
theorem store_inv (hI : Inv s l) (i : Nat)
    (hdur : s.pc.pastFlush = true → ∀ c, l.owner i = some c → Durable s.inputQueue l c) :
    Inv s (l.store i) := by
  refine ⟨hI.isOpen, hI.placed, hI.fresh, hI.distinct, hI.busy, hI.call, hI.owner,
    fun j c hc => ?_, ?_⟩
  · by_cases hj : j = i
    · subst hj
      simp only [Ledger.store, Function.update_self] at hc
      exact hI.owner j c hc
    · simp only [Ledger.store, Function.update_of_ne hj] at hc
      exact hI.stored j c hc
  · cases hpast : s.pc.pastFlush with
    | true =>
      refine hI.ahead.copy_durable fun j => ?_
      by_cases hj : j = i
      · subst hj
        simp only [Ledger.store, Function.update_self]
        exact .inr (hdur hpast)
      · simp only [Ledger.store, Function.update_of_ne hj]
        exact .inl (Set.Subset.refl _)
    | false =>
      exact hI.ahead.copy (Set.Subset.refl _) fun j hj => absurd hpast hj

theorem exit_inv {i : Nat} {cp : IpCheckpoint δ} {st : Store δ} (hI : Inv s l)
    (hp : s.inputs i = some ⟨cp, none⟩) :
    Inv { s with store := st, inputs := Function.update s.inputs i none } l := by
  refine ⟨hI.isOpen, hI.placed, hI.fresh, hI.distinct, fun j c hc => ?_, fun j cp' pb hj => ?_,
    hI.owner, hI.stored, hI.ahead⟩
  · by_cases hj : j = i
    · subst hj
      obtain ⟨cp', pb, h⟩ := hI.busy j c hc
      rw [hp] at h
      cases h
    · simpa [hj] using hI.busy j c hc
  · by_cases hji : j = i
    · subst hji
      simp at hj
    · simp only [Function.update_of_ne hji] at hj
      exact hI.call j cp' pb hj

/-- The writer copies the checkpoints, flushes the queue, and in the end persists the store. -/
theorem write_inv (hI : Inv s l) (hadm : Admits (s, l) (.write : ServiceEvent δ)) :
    Inv (s.writeStep shape) (see varint shape s l .write) := by
  obtain ⟨hopen, hgrows⟩ := Service.writeStep_inputQueue shape hI.isOpen
  obtain ⟨hinputs, -, -⟩ := Service.plugins_writeStep shape s
  have hframe : dirty s.pc ⊆ dirty (s.writeStep shape).pc → Inv (s.writeStep shape) l :=
    frame_inv hI hopen hgrows hinputs
  cases hpc : s.pc with
  | inputStats i =>
    have hpast : (s.writeStep shape).pc.pastFlush = false :=
      Service.pastFlush_writeStep (by simp [hpc]) (by rw [hpc]; rfl)
    simp only [see, hpc]
    split
    · exact store_inv (hframe fun _ _ => hpast) i fun h => by rw [hpast] at h; cases h
    · exact hframe fun _ _ => hpast
  | inputFlush =>
    have hflush : (s.writeStep shape).inputQueue = s.inputQueue.fflush := by
      rw [Service.inputQueue_writeStep, hpc]
    simp only [see, hpc]
    refine ⟨hopen, fun c w hw => ⟨(hI.placed c w hw).1, (hI.placed c w hw).2.mono hgrows⟩,
      hI.fresh, hI.distinct, by rw [hinputs]; exact hI.busy, by rw [hinputs]; exact hI.call,
      hI.owner, hI.stored, ?_⟩
    have hclean : dirty (s.writeStep shape).pc = ∅ := by
      simp [Service.writeStep, hpc, dirty, WriterPc.pastFlush]
    rw [hclean]
    refine hI.ahead.flush (durable_mono hgrows) fun i _ c hc => ?_
    obtain hcur | hplace := hI.stored i c hc
    · exact absurd hcur (hadm hpc i c hc)
    · obtain ⟨w, hw⟩ := Option.ne_none_iff_exists'.mp hplace
      refine ⟨w, hw, ?_⟩
      rw [hflush]
      exact Output.InQueue.fflush (hI.placed c w hw).2 hI.isOpen
  | persist =>
    simp only [see, hpc]
    have hold : Inv { s.writeStep shape with pc := .persist } l :=
      frame_inv hI hopen hgrows hinputs (by rw [hpc])
    refine ⟨hopen, hold.placed, hI.fresh, hI.distinct, hold.busy, hold.call, hI.owner, hI.stored,
      ?_⟩
    have hclean : dirty WriterPc.persist = ∅ := by simp [dirty, WriterPc.pastFlush]
    have hahead := hold.ahead
    rw [hclean] at hahead
    exact hahead.persist.weaken (Set.empty_subset _)
  | idle | analysisStats | analysisFlush | outputStats | publishInput | publishAnalysis =>
    simp only [see, hpc]
    exact hframe fun _ h => Service.pastFlush_writeStep (by simp [hpc]) h

theorem step_inv {e : ServiceEvent δ} (hI : Inv s l) (hadm : Admits (s, l) e)
    (h : s.step cfg varint shape e = some s') : Inv s' (see varint shape s l e) := by
  obtain ⟨hopen, hgrows⟩ := Service.step_inputQueue h hI.isOpen
  cases e with
  | write => cases h; exact write_inv hI hadm
  | inject i pb d str =>
    obtain ⟨p, hp, hcall, rfl⟩ := Service.step_inject h
    simp only [see, hp]
    exact inject_inv hI hp hcall
  | append i env =>
    obtain ⟨cp, pb, hp, rfl⟩ := Service.step_append h
    simp only [see, hp]
    exact append_inv hI hp
  | inputExit i =>
    obtain ⟨cp, hp, rfl⟩ := Service.step_inputExit h
    refine exit_inv (store_inv hI i fun hpast c hc => ?_) hp
    obtain hcur | hplace := hI.owner i c hc
    · obtain ⟨cp', pb, h⟩ := hI.busy i c hcur
      rw [hp] at h
      cases h
    · obtain ⟨w, hw⟩ := Option.ne_none_iff_exists'.mp hplace
      exact ⟨w, hw, hadm hpast c w hc hw⟩
  | spill q n =>
    cases q <;> cases h <;> exact frame_inv hI hopen hgrows rfl (Set.Subset.refl _)
  | find i e =>
    obtain ⟨-, rfl⟩ := Service.step_find h
    exact frame_inv hI hopen hgrows rfl (Set.Subset.refl _)
  | reset i c =>
    obtain ⟨-, rfl⟩ := Service.step_reset h
    exact frame_inv hI hopen hgrows rfl (Set.Subset.refl _)
  | analyzeInject i pb env => cases h; exact frame_inv hI hopen hgrows rfl (Set.Subset.refl _)
  | analyzed i =>
    obtain ⟨_, -, rfl⟩ := Service.step_analyzed h
    exact frame_inv hI hopen hgrows rfl (Set.Subset.refl _)
  | output j e =>
    obtain ⟨_, _, -, -, rfl⟩ := Service.step_output h
    exact frame_inv hI hopen hgrows rfl (Set.Subset.refl _)
  | outputInject j pb env =>
    obtain ⟨_, -, -, rfl⟩ := Service.step_outputInject h
    exact frame_inv hI hopen hgrows rfl (Set.Subset.refl _)
  | outputExit j =>
    obtain ⟨_, -, -, rfl⟩ := Service.step_outputExit h
    exact frame_inv hI hopen hgrows rfl (Set.Subset.refl _)

theorem start_inv (inputDir analysisDir : Dir) (st : Store δ)
    (inputs : Nat → Option (IpCheckpoint δ)) (outputs : Nat → Option OutputSlot) :
    Inv (Service.start inputDir analysisDir st inputs outputs) Ledger.empty := by
  refine ⟨open_hsInitOutput inputDir, ?_, ?_, ?_, ?_, fun i cp pb h => ?_, ?_, ?_,
    ⟨fun i _ => ?_, fun i => ?_⟩⟩
  case refine_5 => simp [Service.start] at h
  all_goals simp [Ledger.empty]

end

/-- A run whose steps are admitted never persists the checkpoint of a call whose message is not on
disk. -/
theorem input_safe (inputDir analysisDir : Dir) (st : Store δ)
    (inputs : Nat → Option (IpCheckpoint δ)) (outputs : Nat → Option OutputSlot)
    {es : List (ServiceEvent δ)}
    (hadm : Runs.Meets (step cfg varint shape) Admits
      (Service.start inputDir analysisDir st inputs outputs, Ledger.empty) es) :
    Runs.Always (step cfg varint shape) Safe
      (Service.start inputDir analysisDir st inputs outputs, Ledger.empty) es := by
  refine Runs.Always.mono (P := fun s : State δ => Inv s.1 s.2)
    (fun s hI i c hc => hI.ahead.persisted i hc) ?_
  refine Runs.always_of_meets (I := fun s : State δ => Inv s.1 s.2) (fun s e s' hI hc h => ?_)
    (start_inv inputDir analysisDir st inputs outputs) hadm
  obtain ⟨hs, hl⟩ := Runs.observe_some.mp h
  rw [hl]
  exact step_inv hI hc hs

/-! ## A run that loses a message -/

/-- One input plugin without a checkpoint, empty queues. -/
def oneInput : Service Nat :=
  Service.start ⟨[], fun _ => []⟩ ⟨[], fun _ => []⟩
    ⟨fun _ => .nil, fun _ => none, fun _ _ => none, fun _ => none⟩
    (fun i => if i = 0 then some IpCheckpoint.init else none) fun _ => none

/-- A whole pass of `hs_write_checkpoints` between the two critical sections of a call. -/
def overtakenRun : List (ServiceEvent Nat) :=
  .inject 0 (some [1, 2, 3]) none (some [0x61]) :: List.replicate 11 .write

theorem input_unsafe : ¬∀ (δ : Type) cfg varint shape inputDir analysisDir (st : Store δ) inputs
    outputs es, Runs.Always (step cfg varint shape) Safe
      (Service.start inputDir analysisDir st inputs outputs, Ledger.empty) es := by
  intro h
  have hrun : ∃ t, Runs.run (step ⟨1024, 0, 0⟩ (fun n => [UInt8.ofNat n]) ⟨1, 1, 0⟩)
      (oneInput, Ledger.empty) overtakenRun = some t ∧ t.2.persisted 0 = some 0 ∧
        t.2.place 0 = none := ⟨_, rfl, rfl, rfl⟩
  obtain ⟨t, hrun, hpersisted, hplace⟩ := hrun
  obtain ⟨w, hw, -⟩ := (h Nat _ _ _ _ _ _ _ _ _).run hrun 0 0 hpersisted
  rw [hplace] at hw
  cases hw

/-- The call completes before the pass. -/
def completedRun : List (ServiceEvent Nat) :=
  .inject 0 (some [1, 2, 3]) none (some [0x61]) :: .append 0 ⟨0, none, none⟩ ::
    List.replicate 11 .write

theorem input_safe_completed :
    Runs.Always (step ⟨1024, 0, 0⟩ (fun n => [UInt8.ofNat n]) ⟨1, 1, 0⟩) Safe
      (oneInput, Ledger.empty) completedRun := by
  refine input_safe _ _ _ _ _ _ _ _ ?_
  refine .cons rfl trivial (.cons rfl trivial ?_)
  refine .cons rfl (fun h => nomatch h) (.cons rfl (fun h => nomatch h)
    (.cons rfl (fun h => nomatch h) (.cons rfl (fun _ i c _ hc => ?_) ?_)))
  · cases i <;> cases hc
  · refine .cons rfl (fun h => nomatch h) (.cons rfl (fun h => nomatch h)
      (.cons rfl (fun h => nomatch h) (.cons rfl (fun h => nomatch h)
      (.cons rfl (fun h => nomatch h) (.cons rfl (fun h => nomatch h)
      (.cons rfl (fun h => nomatch h) trivial))))))

end InputDelivery

end Hindsight
