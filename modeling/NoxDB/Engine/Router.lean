import NoxDB.Engine.SingleThread

/-! # One route or the other

`nox_write` sends a big aligned write straight to the device and everything else through
pages.  The two routes write with different primitives: Stage-2 resumes a short `pwritev`,
the direct path issues one `pwrite` and reports what is short as an error.  With a device
that reports no error and finishes what is reissued, the page route always succeeds; the
direct one does when its single `pwrite` is whole, and then both leave the same bytes.
-/

namespace NoxDB

open Function (update)
open Library.Runs

variable {n : Nat}

/-- The length of a request that has been reissued `NOX_IO_MAX_STALL` times. -/
def Stage2.lastTry : Stage2 → Option Nat
  | .writing batch st => if st.stall = 0 then some ((batch.drop st.i).length * zoneSize) else none
  | _ => none

/-- The device reports no error, transfers something whenever it is asked, and transfers all of a
request that has been reissued `NOX_IO_MAX_STALL` times. -/
def DeviceServes (s : Engine n) : Label n → Prop
  | .pread .fail | .pwrite _ (.error _ _) | .pwritev (.error _ _) | .closeFd false => False
  | .pwrite _ (.ok w) => 0 < w
  | .pwritev (.ok w) => 0 < w ∧ ∀ len ∈ s.s2.lastTry, w = len
  | _ => True

instance (s : Engine n) (label : Label n) : Decidable (DeviceServes s label) :=
  match label with
  | .pread .fail | .pwrite _ (.error _ _) | .pwritev (.error _ _) | .closeFd false =>
    inferInstanceAs (Decidable False)
  | .pwrite _ (.ok w) => inferInstanceAs (Decidable (0 < w))
  | .pwritev (.ok w) => inferInstanceAs (Decidable (0 < w ∧ ∀ len ∈ s.s2.lastTry, w = len))
  | .pread (.count _) | .closeFd true | .call _ _ | .alloc _ _ _ | .fg _ | .oom _ | .stage1
  | .stage2 | .close | .closer => inferInstanceAs (Decidable True)

/-! ## No error without a cause -/

/-- Stage-1 could not read the holes of its page. -/
def Stage1.failing : Stage1 → Bool
  | .readFailed _ | .finish _ false => true
  | _ => false

/-- Stage-2 could not write its batch. -/
def Stage2.failing : Stage2 → Bool
  | .written _ false | .latch _ false => true
  | _ => false

/-- The local variable `err` of `nox_close`. -/
def Closer.err : Closer → Option Bool
  | .sweep err _ _ | .sweepEnqueue err _ _ _ | .sweepUnlock err _ _ | .sweepNext err _ _
  | .secondDrain err | .stopping err | .shutdown1 err | .join1 err | .shutdown2 err | .join2 err
  | .lastCheck err | .destroy err | .closeFd err | .returned err => some err
  | _ => none

structure Unharmed (s : Engine n) : Prop where
  latched : s.ioErr = false
  reading : s.s1.failing = false
  writing : s.s2.failing = false
  closing : s.closer.err ≠ some true

variable {cfg : Config} {file : File} {scratch : Nat → UInt8} {s s' : Engine n} {label : Label n}

/-- The loop does not give up on a device that finishes what is reissued. -/
theorem pwritevAfter_served {lens : List Nat} {st : PwritevState} {w : Nat} (positive : 0 < w)
    (finishes : st.stall = 0 → w = (lens.drop st.i).sum) {total : Option Nat}
    (outcome : pwritevAfter lens st (.ok w) = .done total) : total = some lens.sum := by
  cases w with
  | zero => omega
  | succ w =>
    simp only [pwritevAfter] at outcome
    split at outcome
    · next none =>
      rw [PwritevState.spend] at outcome
      split at outcome
      · next exhausted =>
        -- What finished completed its iovecs, so there was one.
        have whole := finishes exhausted
        rw [whole, iovCompleteCount_sum] at none
        rw [List.length_eq_zero_iff.mp none] at whole
        simp at whole
      · simp at outcome
    · split at outcome
      · exact (PwritevNext.done.inj outcome).symm
      · simp at outcome

namespace Unharmed

theorem init (cfg : Config) (file : File) (scratch : Nat → UInt8) :
    Unharmed (Engine.init n cfg file scratch) := by
  constructor <;> simp [Engine.init, Stage1.failing, Stage2.failing, Closer.err]

theorem stage1 (unharmed : Unharmed s) (move : Stage1Move cfg s label s')
    (serves : DeviceServes s label) : Unharmed s' := by
  obtain ⟨latched, reading, writing, closing⟩ := unharmed
  cases move with
  | readFailed position => simp [position, Stage1.failing] at reading
  | drop position => simp [position, Stage1.failing] at reading
  | preadFail => simp [DeviceServes] at serves
  | _ => exact ⟨latched, rfl, writing, closing⟩

theorem stage2 (unharmed : Unharmed s) (move : Stage2Move s label s')
    (serves : DeviceServes s label) : Unharmed s' := by
  obtain ⟨latched, reading, writing, closing⟩ := unharmed
  cases move with
  | @written batch ok position =>
    cases ok with
    | false => simp [position, Stage2.failing] at writing
    | true => exact ⟨latched, reading, rfl, closing⟩
  | @latch batch ok position =>
    cases ok with
    | false => simp [position, Stage2.failing] at writing
    | true => exact ⟨by simpa using latched, reading, rfl, closing⟩
  | @pwritev batch st result position fits after outcome =>
    refine ⟨latched, reading, ?_, closing⟩
    cases result with
    | error => exact absurd serves (by simp [DeviceServes])
    | ok w =>
      obtain ⟨positive, finishes⟩ := serves
      cases after with
      | again next => rfl
      | done total =>
        have sum : (batch.map fun _ => zoneSize).sum = batch.length * zoneSize := by simp
        have whole := pwritevAfter_served positive (fun exhausted => by
          rw [finishes _ (by rw [position, Stage2.lastTry, if_pos exhausted]; rfl), ← List.map_drop]
          simp) outcome.symm
        rw [sum] at whole
        simp [afterPwritev, whole, Stage2.failing]
  | _ => exact ⟨latched, reading, rfl, closing⟩

theorem closer (unharmed : Unharmed s) (move : CloserMove s label s')
    (serves : DeviceServes s label) : Unharmed s' := by
  obtain ⟨latched, reading, writing, closing⟩ := unharmed
  cases move with
  | @closeFd err ok position =>
    refine ⟨latched, reading, writing, ?_⟩
    cases ok with
    | false => exact absurd serves (by simp [DeviceServes])
    | true => simpa [position, Closer.err] using closing
  | sweepLock position alive free page enqueue chosen =>
    refine ⟨latched, reading, writing, ?_⟩
    cases enqueue <;> simpa [position, Closer.err, Engine.sweepAfter] using closing
  | close position | disarm position | firstDrain position =>
    exact ⟨latched, reading, writing, by simp [Closer.err, latched]⟩
  | secondDrain position | lastCheck position =>
    refine ⟨latched, reading, writing, ?_⟩
    simpa [position, Closer.err, latched] using closing
  | sweepFault | sweepNextFault => exact ⟨latched, reading, writing, by simp [Closer.err]⟩
  | sweepBucket position | sweepDone position | partialInc position | partialPush position
  | fullInc position | fullEnter position | fullPush position | sweepUnlock position
  | sweepNext position | stopping position | shutdown1 position | join1 position
  | shutdown2 position | join2 position | destroy position =>
    refine ⟨latched, reading, writing, ?_⟩
    simpa [position, Closer.err] using closing

theorem step (unharmed : Unharmed s) (move : Move cfg s label s')
    (serves : DeviceServes s label) : Unharmed s' := by
  cases move with
  | fg move => cases move <;> exact { unharmed with }
  | stage1 move => exact unharmed.stage1 move serves
  | stage2 move => exact unharmed.stage2 move serves
  | closer move => exact unharmed.closer move serves

/-- Whatever `nox_close` returns is 0. -/
theorem returned (unharmed : Unharmed s) {err : Bool} (closed : s.closer = .returned err) :
    err = false := by
  have fine := unharmed.closing
  cases err <;> simp_all [Closer.err]

end Unharmed

/-! ## What calls return -/

/-- How a call comes to return what it does. -/
theorem returned_cases (move : Move cfg s label s') {t : Fin n} {call : Call} {rc : ReturnCode}
    (member : Event.returned t call rc ∈ s'.log) :
    Event.returned t call rc ∈ s.log ∨
      (label = .call t call ∧ call.size = 0 ∨ call ∈ (s.fg t).call) ∧
      (rc = .ok ∧ s.fg t ≠ .direct call ∨ label = .oom t ∨ ∃ result, label = .pwrite t result ∧
        s.fg t = .direct call ∧ rc = if result = .ok call.size then .ok else .eio) := by
  have elsewhere : ∀ {events : List (Event n)}, s'.log = events ++ s.log →
      Event.returned t call rc ∉ events → Event.returned t call rc ∈ s.log := by
    intro events log absent
    rw [log] at member
    exact (List.mem_append.mp member).resolve_left absent
  have quiet : (∃ events, s'.log = events ++ s.log ∧
      ∀ event ∈ events, event.background = true) → Event.returned t call rc ∈ s.log := by
    rintro ⟨events, log, background⟩
    refine elsewhere log fun among => ?_
    simpa [Event.background] using background _ among
  cases move with
  | stage1 move => exact .inl (quiet (background_of_stage1 move))
  | stage2 move => exact .inl (quiet (background_of_stage2 move))
  | closer move => exact .inl (quiet (background_of_closer move))
  | fg move =>
    cases move with
    | callZero position running empty =>
      rcases List.mem_cons.mp member with new | old
      · obtain ⟨rfl, rfl, rfl⟩ := Event.returned.inj new
        exact .inr ⟨.inl ⟨rfl, empty⟩, .inl ⟨rfl, by simp [position]⟩⟩
      · exact .inl old
    | oomPage position | oomDirect position =>
      rcases List.mem_cons.mp member with new | old
      · obtain ⟨rfl, rfl, rfl⟩ := Event.returned.inj new
        exact .inr ⟨.inr (by rw [position]; rfl), .inr (.inl rfl)⟩
      · exact .inl old
    | unlockDone position =>
      rcases List.mem_cons.mp member with new | old
      · obtain ⟨rfl, rfl, rfl⟩ := Event.returned.inj new
        exact .inr ⟨.inr (by rw [position]; rfl), .inl ⟨rfl, by simp [position]⟩⟩
      · exact .inl old
    | @pwrite u request result position fits =>
      rcases List.mem_cons.mp member with new | old
      · obtain ⟨rfl, rfl, rfl⟩ := Event.returned.inj new
        exact .inr ⟨.inr (by rw [position]; rfl), .inr (.inr ⟨result, rfl, position, rfl⟩)⟩
      · exact .inl (by simpa using old)
    | alloc => exact .inl (by simpa using member)
    | decide => exact .inl (elsewhere rfl (by simp [chunkEvents]))
    | detach => exact .inl (elsewhere rfl (by simp))
    | _ => exact .inl member

/-- Every call satisfies `made`. -/
structure Made (made : Call → Prop) (s : Engine n) : Prop where
  active : ∀ t, ∀ call ∈ (s.fg t).call, made call
  returned : ∀ t call rc, Event.returned t call rc ∈ s.log → made call

theorem Made.init (made : Call → Prop) (cfg : Config) (file : File) (scratch : Nat → UInt8) :
    Made made (Engine.init n cfg file scratch) := by
  constructor <;> simp [Engine.init, Fg.call]

theorem Made.step {made : Call → Prop} (all : Made made s) (move : Move cfg s label s')
    (new : ∀ t call, label = .call t call → made call) : Made made s' := by
  refine ⟨fun t call member => ?_, fun t call rc member => ?_⟩
  · rcases call_cases move member with before | now
    · exact all.active t call before
    · exact new t call now
  · rcases returned_cases move member with old | ⟨⟨now, -⟩ | active, -⟩
    · exact all.returned t call rc old
    · exact new t call now
    · exact all.active t call active

/-! ## The two ways to issue the same bytes -/

/-- The call writes bytes of `whole` where `whole` has them. -/
def PieceOf (whole call : Call) : Prop :=
  ∀ y, call.Covers y → whole.Covers y ∧ call.value y = whole.value y

/-- Every byte of `whole` was written by a call that returned. -/
def Delivers (whole : Call) (s : Engine n) : Prop := ∀ y, whole.Covers y → (s.lastCall y).isSome

/-- The bytes of `whole` in one call; the device answers `answer` to a direct write. -/
structure DirectSetting (whole : Call) (answer : IoResult) (s : Engine 1) (label : Label 1) :
    Prop where
  calls : ∀ t call, label = .call t call → call = whole
  answers : ∀ t result, label = .pwrite t result → result = answer
  allocates : label.allocates = true
  serves : DeviceServes s label

/-- The bytes of `whole` in calls that take the scrap path. -/
structure SplitSetting (whole : Call) (s : Engine 1) (label : Label 1) : Prop where
  calls : ∀ t call, label = .call t call → PieceOf whole call
  scrap : label.scrap = true
  allocates : label.allocates = true
  serves : DeviceServes s label
  reads : WholeReads s label

/-- What a file holds after all pieces of `whole` are written. -/
theorem lastWritten_of_pieces {whole : Call} {y : Nat} (made : Made (PieceOf whole) s)
    (delivers : Delivers whole s) (covers : whole.Covers y) (file : File) :
    s.lastWritten file y = whole.value y := by
  obtain ⟨⟨call, rc⟩, last⟩ := Option.isSome_iff_exists.mp (delivers y covers)
  rw [Engine.lastWritten, last]
  obtain ⟨t, member, piece⟩ := returned_of_lastCall last
  exact (made.returned t call rc member y piece).2

/-- No page was created and no thread is on the scrap path. -/
structure Pageless (s : Engine n) : Prop where
  created : s.created = 0
  direct : ∀ t call done pc, s.fg t ≠ .scrap call done pc

theorem Pageless.step (pageless : Pageless s) (move : Move cfg s label s')
    (direct : ∀ t call, label = .call t call → call.isDirect = true) : Pageless s' := by
  have away := pageless.direct
  cases move with
  | stage1 move => cases move <;> exact ⟨pageless.created, away⟩
  | stage2 move => cases move <;> exact ⟨pageless.created, away⟩
  | closer move => cases move <;> exact ⟨pageless.created, away⟩
  | fg move =>
    cases move with
    | callZero => exact ⟨pageless.created, away⟩
    | @callDirect t | @oomDirect t | @pwrite t =>
      refine ⟨pageless.created, fun u call done pc after => ?_⟩
      by_cases mine : u = t
      · simp [mine] at after
      · exact away u call done pc (by simpa [mine] using after)
    | callScrap _ _ _ scrap => simp [direct _ _ rfl] at scrap
    | gatePass position | gatePark position | parkedPass position | lookupFound position
    | alloc position | oomPage position | lockPage position | decide position | partialInc position
    | partialPush position | fullInc position | fullEnter position | fullPush position
    | unlockMore position | unlockDone position | unlockRetry position | detach position =>
      exact absurd position (away _ _ _ _)

/-- Without a page a direct write has nothing in its way, and Stage-1 nothing to read for. -/
theorem Pageless.clear (pageless : Pageless s) (sound : Sound cfg s) (label : Label n) :
    DirectClear s label ∧ WholeReads s label := by
  cases label with
  | pwrite t result =>
    refine ⟨fun call _ y _ _ p current => ?_, trivial⟩
    rw [pageless.created] at current
    omega
  | pread result =>
    refine ⟨trivial, ?_⟩
    cases result with
    | fail => trivial
    | count delivered =>
      intro request asked
      cases position : s.s1 with
      | reading p runs =>
        have current := sound.hand_lt_created (p := p) (by simp [position, Stage1.pages])
        rw [pageless.created] at current
        exact absurd current (Nat.not_lt_zero _)
      | _ => simp [position, Stage1.asked] at asked
  | _ => exact ⟨trivial, trivial⟩

section Direct

variable {whole : Call} {answer : IoResult} {d : Engine 1} (direct : whole.isDirect = true)
  (run : Run (Engine.step cfg) (DirectSetting whole answer) (Engine.init 1 cfg file scratch) d)
include direct run

theorem pageless_of_direct : Pageless d := by
  apply run.invariant Pageless
  · exact ⟨rfl, by simp [Engine.init]⟩
  · intro middle last label pageless met stepped
    refine pageless.step (move_of_step stepped) fun t call called => ?_
    rw [met.calls t call called]
    exact direct

omit direct in
theorem made_of_direct : Made (· = whole) d := by
  apply run.invariant (Made (· = whole))
  · exact .init _ cfg file scratch
  · intro middle last label made met stepped
    exact made.step (move_of_step stepped) met.calls

/-- A direct call returns 0 if its one `pwrite` is whole, and an error if it is not. -/
theorem returned_of_direct {t : Fin 1} {call : Call} {rc : ReturnCode}
    (member : Event.returned t call rc ∈ d.log) :
    rc = if answer = .ok whole.size then .ok else .eio := by
  have all : ∀ t call rc, Event.returned t call rc ∈ d.log →
      rc = if answer = .ok whole.size then .ok else .eio := by
    apply run.invariant_along (fun s => Pageless s ∧ Made (· = whole) s)
      (fun s => ∀ t call rc, Event.returned t call rc ∈ s.log →
        rc = if answer = .ok whole.size then .ok else .eio)
    · exact fun run => ⟨pageless_of_direct direct run, made_of_direct run⟩
    · simp [Engine.init]
    · rintro middle last label ⟨pageless, made⟩ before met stepped t call rc member
      rcases returned_cases (move_of_step stepped) member with old | ⟨source, way⟩
      · exact before t call rc old
      · rcases way with ⟨-, other⟩ | oom | ⟨result, wrote, position, rfl⟩
        · -- Only a call of size 0 or on the scrap path returns otherwise.
          rcases source with ⟨called, empty⟩ | active
          · rw [met.calls t call called] at empty
            simp [Call.isDirect, empty] at direct
          · cases position : middle.fg t with
            | idle => simp [position, Fg.call] at active
            | direct request =>
              obtain rfl : request = call := by simpa [position, Fg.call] using active
              exact absurd position other
            | scrap request done pc => exact absurd position (pageless.direct t request done pc)
        · simpa [oom, Label.allocates] using met.allocates
        · rw [met.answers t result wrote, made.active t call (by rw [position]; rfl)]
  exact all t call rc member

theorem bytes_of_direct (ok : AllOk d) (closed : d.closer = .returned false)
    (one : Delivers whole d) {y : Nat} (covers : whole.Covers y) :
    d.file.byte y = whole.value y := by
  have clear := run.strengthen (fun s => Sound cfg s ∧ Pageless s)
    (fun s label => DirectClear s label ∧ WholeReads s label)
    ⟨.init cfg file scratch, ⟨rfl, by simp [Engine.init]⟩⟩
    (fun both met stepped => ⟨both.1.move (move_of_step stepped),
      both.2.step (move_of_step stepped) fun t call called => by
        rw [met.calls t call called]
        exact direct⟩)
    (fun both _ _ => both.2.clear both.1 _)
  have made := made_of_direct run
  rw [lastWritten_of_clear (clear.weaken fun _ _ met => met.2) ok closed y]
  refine lastWritten_of_pieces ⟨fun t call active y piece => ?_, fun t call rc member y piece => ?_⟩
    one covers file
  · rw [made.active t call active] at piece ⊢
    exact ⟨piece, rfl⟩
  · rw [made.returned t call rc member] at piece ⊢
    exact ⟨piece, rfl⟩

end Direct

/-- On the scrap path with memory to spare every call returns 0. -/
theorem allOk_of_split {whole : Call} {s : Engine 1}
    (run : Run (Engine.step cfg) (SplitSetting whole) (Engine.init 1 cfg file scratch) s) :
    AllOk s := by
  have both : NoDirect s ∧ AllOk s := by
    apply run.invariant fun s => NoDirect s ∧ AllOk s
    · simp [NoDirect, AllOk, Engine.init]
    · rintro middle last label ⟨none, before⟩ met stepped
      have move := move_of_step stepped
      refine ⟨none.step move met.scrap, fun t call rc member => ?_⟩
      rcases returned_cases move member with old | ⟨-, ⟨rfl, -⟩ | oom | ⟨result, -, position, -⟩⟩
      · exact before t call rc old
      · rfl
      · simpa [oom, Label.allocates] using met.allocates
      · exact absurd position (none t call)
  exact both.2

theorem bytes_of_split {whole : Call} {s : Engine 1}
    (run : Run (Engine.step cfg) (SplitSetting whole) (Engine.init 1 cfg file scratch) s)
    (closed : s.closer = .returned false) (split : Delivers whole s) {y : Nat}
    (covers : whole.Covers y) : s.file.byte y = whole.value y := by
  have clear := run.strengthen NoDirect DirectClear (by simp [NoDirect, Engine.init])
    (fun none met stepped => none.step (move_of_step stepped) met.scrap) (fun none _ _ => none.clear _)
  have made : Made (PieceOf whole) s := run.invariant (Made (PieceOf whole))
    (.init _ cfg file scratch) fun made met stepped => made.step (move_of_step stepped) met.calls
  rw [lastWritten_of_clear (clear.weaken fun _ _ met => ⟨met.2, met.1.reads⟩)
    (allOk_of_split run) closed y]
  exact lastWritten_of_pieces made split covers file

/-- A big aligned write issued as one call, or as calls on the scrap path, on a device that
reports no error, finishes what is reissued and reads short only at the end of the file, with
memory to spare: both ways report success and leave the same bytes exactly when the one `pwrite`
of the direct path is whole. -/
theorem router_transparent {whole : Call} (direct : whole.isDirect = true) {answer : IoResult}
    {scratch' : Nat → UInt8} {d s : Engine 1} {err err' : Bool}
    (directRun : Run (Engine.step cfg) (DirectSetting whole answer)
      (Engine.init 1 cfg file scratch) d)
    (one : Delivers whole d) (closed : d.closer = .returned err)
    (splitRun : Run (Engine.step cfg) (SplitSetting whole) (Engine.init 1 cfg file scratch') s)
    (split : Delivers whole s) (closed' : s.closer = .returned err') :
    ((AllOk d ∧ err = false) ∧ (AllOk s ∧ err' = false) ∧
      ∀ y, whole.Covers y → d.file.byte y = s.file.byte y) ↔ answer = .ok whole.size := by
  constructor
  · rintro ⟨⟨ok, -⟩, -⟩
    have start : whole.Covers whole.offset := by
      refine ⟨whole.offset_lt, ?_⟩
      simp only [Call.isDirect, Bool.and_eq_true, decide_eq_true_eq] at direct
      rw [Call.index_of_le le_rfl whole.offset_lt]
      simp only [directThreshold] at direct
      omega
    obtain ⟨⟨call, rc⟩, last⟩ := Option.isSome_iff_exists.mp (one _ start)
    obtain ⟨t, member, -⟩ := returned_of_lastCall last
    have outcome := returned_of_direct direct directRun member
    rw [ok t call rc member] at outcome
    by_contra short
    simp [short] at outcome
  · rintro rfl
    have served : Unharmed d := directRun.invariant Unharmed (.init cfg file scratch)
      fun unharmed met stepped => unharmed.step (move_of_step stepped) met.serves
    have served' : Unharmed s := splitRun.invariant Unharmed (.init cfg file scratch')
      fun unharmed met stepped => unharmed.step (move_of_step stepped) met.serves
    obtain rfl := served.returned closed
    obtain rfl := served'.returned closed'
    have ok : AllOk d := fun t call rc member => by
      simpa using returned_of_direct direct directRun member
    have ok' := allOk_of_split splitRun
    refine ⟨⟨ok, rfl⟩, ⟨ok', rfl⟩, fun y covers => ?_⟩
    rw [bytes_of_direct direct directRun ok closed one covers,
      bytes_of_split splitRun closed' split covers]

/-! ## A megabyte, in one piece and in two -/

/-- Half a megabyte of `bigCall`, from zone `2 * k` on. -/
def halfCall (k : Fin 2) : Call where
  buf := fun _ => 255
  size := 2 * zoneSize
  offset := k * (2 * zoneSize)
  size_lt := by decide
  offset_lt := by have := k.isLt; simp only [zoneSize, word]; omega

/-- A page for one zone of the half, filled by one chunk. -/
def writeWhole (address : Nat) : List (Label 1) :=
  [.fg 0, .alloc 0 address (fun _ => 1), .fg 0, .fg 0, .fg 0, .fg 0, .fg 0]

/-- Stage-2 writes the four pages in one batch; its first `pwritev` is short. -/
def writebackFour : List (Label 1) :=
  (List.replicate 19 .stage2 : List (Label 1)) ++
    ([.pwritev (.ok (zoneSize + blockSize)), .pwritev (.ok (3 * zoneSize))] : List (Label 1)) ++
    (List.replicate 15 .stage2 : List (Label 1))

/-- Both halves on the scrap path. -/
def writeHalves : List (Label 1) :=
  .call 0 (halfCall 0) :: (writeWhole 7 ++ writeWhole 8) ++
    .call 0 (halfCall 1) :: (writeWhole 9 ++ writeWhole 10) ++ writebackFour

theorem lastCall_isSome {t : Fin n} {call : Call} {rc : ReturnCode} {y : Nat}
    (member : Event.returned t call rc ∈ s.log) (covers : call.Covers y) :
    (s.lastCall y).isSome := by
  rw [Engine.lastCall, List.findSome?_isSome_iff]
  exact ⟨_, member, by simp [Event.answers, covers]⟩

/-- The event is the return of a call of half a megabyte at `offset`. -/
def Event.returnsAt (offset : Nat) : Event n → Bool
  | .returned _ call _ => call.offset == offset && call.size == 2 * zoneSize
  | _ => false

theorem isSome_of_returnsAt {offset y : Nat} (returns : s.log.any (Event.returnsAt offset) = true)
    (low : offset ≤ y) (high : y < offset + 2 * zoneSize) (bound : offset + 2 * zoneSize ≤ word) :
    (s.lastCall y).isSome := by
  obtain ⟨event, member, half⟩ := List.any_eq_true.mp returns
  cases event with
  | returned t call rc =>
    obtain ⟨rfl, size⟩ : call.offset = offset ∧ call.size = 2 * zoneSize := by
      simpa [Event.returnsAt] using half
    refine lastCall_isSome member ⟨by omega, ?_⟩
    rw [Call.index_of_le low (by omega)]
    omega
  | _ => simp [Event.returnsAt] at half

theorem bigCall_covers {y : Nat} : bigCall.Covers y ↔ y < directThreshold := by
  simp only [Call.Covers, Call.index, bigCall, directThreshold, word]
  omega

theorem halfCall_covers {k : Fin 2} {y : Nat} :
    (halfCall k).Covers y ↔ k * (2 * zoneSize) ≤ y ∧ y < k * (2 * zoneSize) + 2 * zoneSize := by
  have := k.isLt
  simp only [Call.Covers, Call.index, halfCall, zoneSize, word]
  omega

theorem halfCall_piece (k : Fin 2) : PieceOf bigCall (halfCall k) := by
  intro y covers
  have := k.isLt
  rw [halfCall_covers] at covers
  refine ⟨bigCall_covers.mpr ?_, rfl⟩
  simp only [zoneSize, directThreshold] at *
  omega

/-- The direct path when its `pwrite` transfers `w` bytes. -/
theorem exists_direct {w : Nat} (positive : 0 < w) (room : w ≤ directThreshold) :
    ∃ d : Engine 1, Run (Engine.step .standard) (DirectSetting bigCall (.ok w))
      (Engine.init 1 .standard emptyFile fun _ => 0) d ∧ Delivers bigCall d ∧
      d.closer = .returned false := by
  have fits : (IoResult.ok w).Fits bigCall.offset bigCall.size := by
    simp only [IoResult.Fits, IoResult.landed, bigCall, directThreshold, maxOffset] at *
    omega
  have reached : ∃ d : Engine 1, Run (Engine.step .standard) (DirectSetting bigCall (.ok w))
      (Engine.init 1 .standard emptyFile fun _ => 0) d ∧ (d.Settled ∧ ∃ rc,
        Event.returned 0 bigCall rc ∈ d.log) := by
    have called : Engine.step .standard (Engine.init 1 .standard emptyFile fun _ => 0)
        (.call 0 bigCall) = some { Engine.init 1 .standard emptyFile fun _ => 0 with
          fg := update (fun _ => .idle) 0 (.direct bigCall) } := rfl
    have written : Engine.step .standard { Engine.init 1 .standard emptyFile fun _ => 0 with
          fg := update (fun _ => .idle) 0 (.direct bigCall) } (.pwrite 0 (.ok w)) =
        some { Engine.init 1 .standard emptyFile fun _ => 0 with
          file := emptyFile.pwrite 0 w bigCall.buf
          fg := update (update (fun _ => .idle) 0 (.direct bigCall)) 0 .idle
          log := [.returned 0 bigCall (if IoResult.ok w = .ok bigCall.size then .ok else .eio),
            .wroteDirect 0 w bigCall.buf] } := if_pos fits
    have asks : ∀ s, DirectSetting bigCall (.ok w) s (.call 0 bigCall) := fun s =>
      ⟨fun t call same => (Label.call.inj same).2.symm, by simp, rfl, trivial⟩
    have answers : ∀ s, DirectSetting bigCall (.ok w) s (.pwrite 0 (.ok w)) := fun s =>
      ⟨by simp, fun t result same => (Label.pwrite.inj same).2.symm, rfl, positive⟩
    refine ⟨_, .tail (.tail .refl (asks _) called) (answers _) written, ?_, _, List.mem_cons_self⟩
    refine ⟨rfl, fun t => ?_, rfl, rfl, rfl, rfl⟩
    obtain rfl : t = 0 := Subsingleton.elim _ _
    rfl
  obtain ⟨d, d', run, closed, -, log, rc, member⟩ := exists_closed (fun _ _ closes => by
    rcases Label.cases_of_closes closes with rfl | rfl | rfl | rfl | rfl <;>
      exact ⟨by simp, by simp, rfl, trivial⟩) reached
  exact ⟨d', run, fun y covers => lastCall_isSome (log ▸ member) covers, closed⟩

/-- The scrap path in two halves. -/
theorem exists_split :
    ∃ s : Engine 1, Run (Engine.step .standard) (SplitSetting bigCall)
      (Engine.init 1 .standard emptyFile fun _ => 0) s ∧ Delivers bigCall s ∧
      s.closer = .returned false := by
  have reached : ∃ s : Engine 1, Run (Engine.step .standard) (SplitSetting bigCall)
      (Engine.init 1 .standard emptyFile fun _ => 0) s ∧ (s.Settled ∧
        s.log.any (Event.returnsAt 0) = true ∧ s.log.any (Event.returnsAt (2 * zoneSize)) = true) := by
    refine exists_run_among .standard emptyFile (fun _ => 0)
      (fun s label => label.scrap && label.allocates && decide (DeviceServes s label) &&
        decide (WholeReads s label)) writeHalves (fun s label among passed => ?_) _ ?_
    · simp only [Bool.and_eq_true, decide_eq_true_eq] at passed
      obtain ⟨⟨⟨scrap, allocates⟩, serves⟩, reads⟩ := passed
      refine ⟨fun t call called => ?_, scrap, allocates, serves, reads⟩
      subst called
      have half : call = halfCall 0 ∨ call = halfCall 1 := by
        simp [writeHalves, writeWhole, writebackFour] at among
        tauto
      rcases half with rfl | rfl <;> exact halfCall_piece _
    · decide +kernel
  obtain ⟨s, s', run, closed, -, log, first, second⟩ := exists_closed (fun _ _ closes => by
    rcases Label.cases_of_closes closes with rfl | rfl | rfl | rfl | rfl <;>
      exact ⟨by simp, rfl, rfl, trivial, trivial⟩) reached
  refine ⟨s', run, fun y covers => ?_, closed⟩
  rw [bigCall_covers] at covers
  by_cases low : y < 2 * zoneSize
  · exact isSome_of_returnsAt (log ▸ first) (Nat.zero_le _) (by omega) (by decide)
  · refine isSome_of_returnsAt (log ▸ second) (Nat.not_lt.mp low) ?_ (by decide)
    simp only [zoneSize, directThreshold] at *
    omega

/-- With a whole `pwrite` both ways succeed and leave the same megabyte. -/
theorem router_transparent_of_whole :
    ∃ d s : Engine 1, ∃ err err',
      Run (Engine.step .standard) (DirectSetting bigCall (.ok directThreshold))
        (Engine.init 1 .standard emptyFile fun _ => 0) d ∧ d.closer = .returned err ∧
      Run (Engine.step .standard) (SplitSetting bigCall)
        (Engine.init 1 .standard emptyFile fun _ => 0) s ∧ s.closer = .returned err' ∧
      (AllOk d ∧ err = false) ∧ (AllOk s ∧ err' = false) ∧
      ∀ y, bigCall.Covers y → d.file.byte y = s.file.byte y := by
  obtain ⟨d, directRun, one, closed⟩ := exists_direct (w := directThreshold) (by decide) le_rfl
  obtain ⟨s, splitRun, split, closed'⟩ := exists_split
  exact ⟨d, s, false, false, directRun, closed, splitRun, closed',
    (router_transparent (by decide) directRun one closed splitRun split closed').mpr rfl⟩

/-- A `pwrite` of the direct path that transfers one block is reported as an error, while the scrap
path resumes. -/
theorem router_transparent_short :
    ¬ ∀ (answer : IoResult) (d s : Engine 1) (err err' : Bool),
      Run (Engine.step .standard) (DirectSetting bigCall answer)
        (Engine.init 1 .standard emptyFile fun _ => 0) d → Delivers bigCall d →
      d.closer = .returned err →
      Run (Engine.step .standard) (SplitSetting bigCall)
        (Engine.init 1 .standard emptyFile fun _ => 0) s → Delivers bigCall s →
      s.closer = .returned err' →
      (AllOk d ∧ err = false) ∧ (AllOk s ∧ err' = false) ∧
        ∀ y, bigCall.Covers y → d.file.byte y = s.file.byte y := by
  intro claimed
  obtain ⟨d, directRun, one, closed⟩ := exists_direct (w := blockSize) (by decide) (by decide)
  obtain ⟨s, splitRun, split, closed'⟩ := exists_split
  obtain ⟨⟨ok, -⟩, -⟩ := claimed _ d s _ _ directRun one closed splitRun split closed'
  obtain ⟨⟨call, rc⟩, last⟩ := Option.isSome_iff_exists.mp (one 0 (by decide))
  obtain ⟨t, member, -⟩ := returned_of_lastCall last
  have outcome := returned_of_direct (by decide) directRun member
  rw [ok t call rc member] at outcome
  simp [bigCall] at outcome

end NoxDB
