import NoxDB.Engine.Concurrent
import NoxDB.Engine.Drain

/-! # The last writer of a byte

What a call promises: once it returned 0, its bytes hold until another call covers them.
`lastCall` reads the last call for a file offset off the history.  As long as calls that
overlap in time share no byte, the order in which merges land is the order of the calls,
byte by byte.
-/

namespace NoxDB

open Function (update)
open Library.Runs

variable {n : Nat}

/-- The call that the event answers, when it covers file offset `y`. -/
def Event.answers (y : Nat) : Event n → Option (Call × ReturnCode)
  | .returned _ call rc => if call.Covers y then some (call, rc) else none
  | _ => none

/-- The last call to return that covers file offset `y`, and what it returned. -/
def Engine.lastCall (s : Engine n) (y : Nat) : Option (Call × ReturnCode) :=
  s.log.findSome? (Event.answers y)

/-- What file offset `y` is owed: the byte of the last call that covers it, if that call
returned 0, and the byte it had at first if no call covers it. -/
def Promised (file : File) (s : Engine n) (y : Nat) (v : UInt8) : Prop :=
  match s.lastCall y with
  | none => v = file.byte y
  | some (call, rc) => rc = .ok → v = call.value y

/-- The chunk of the thread is in its page. -/
def ChunkPc.merged : ChunkPc → Bool
  | .enqueue _ _ .ret | .unlock _ .ret => true
  | _ => false

/-- The call the thread is in and how many of its bytes are delivered. -/
def Fg.progress : Fg → Option (Call × Nat)
  | .idle => none
  | .direct call => some (call, 0)
  | .scrap call done pc => some (call, if pc.merged then done + call.chunk done else done)

/-- The thread has delivered file offset `y`. -/
def Fg.Delivered (f : Fg) (y : Nat) : Prop :=
  ∃ call done, f.progress = some (call, done) ∧ call.Covers y ∧ call.index y < done

structure Answered (file : File) (s : Engine n) : Prop where
  active : ∀ t call done, (s.fg t).progress = some (call, done) →
    ∀ y, call.Covers y → call.index y < done → (s.latest file y).2 = call.value y
  settled : ∀ y, (∀ t, ¬ (s.fg t).Delivered y) → Promised file s y (s.latest file y).2

variable {cfg : Config} {file : File} {scratch : Nat → UInt8} {s s' : Engine n} {label : Label n}
  {y : Nat}

/-! ## What a step adds to the history -/

/-- The event neither writes a byte nor answers a call. -/
def Event.background : Event n → Bool
  | .merged _ _ _ _ | .wroteDirect _ _ _ | .returned _ _ _ => false
  | _ => true

theorem Event.silent_of_background {event : Event n} (background : event.background = true) (y : Nat) :
    event.lands y = none ∧ event.answers y = none := by
  cases event <;> simp_all [Event.background, Event.lands, Event.answers]

/-- A step that records only background events leaves the latest writes and the last calls. -/
theorem same_of_background {events : List (Event n)} (log : s'.log = events ++ s.log)
    (background : ∀ event ∈ events, event.background = true) (y : Nat) :
    (∀ file : File, s'.latest file y = s.latest file y) ∧ s'.lastCall y = s.lastCall y := by
  have lands : events.findSome? (Event.lands y) = none :=
    List.findSome?_eq_none_iff.mpr fun event member =>
      (Event.silent_of_background (background event member) y).1
  have answers : events.findSome? (Event.answers y) = none :=
    List.findSome?_eq_none_iff.mpr fun event member =>
      (Event.silent_of_background (background event member) y).2
  refine ⟨fun file => latest_of_silent events log lands, ?_⟩
  rw [Engine.lastCall, log, List.findSome?_append, answers]
  rfl

theorem returned_of_lastCall {call : Call} {rc : ReturnCode} (last : s.lastCall y = some (call, rc)) :
    ∃ t, Event.returned t call rc ∈ s.log ∧ call.Covers y := by
  obtain ⟨event, member, answers⟩ := List.exists_of_findSome?_eq_some last
  cases event with
  | returned t other code =>
    rw [Event.answers] at answers
    split at answers
    · next covers =>
      obtain ⟨rfl, rfl⟩ : other = call ∧ code = rc := by simpa using answers
      exact ⟨t, member, covers⟩
    · simp at answers
  | _ => simp [Event.answers] at answers

theorem lastCall_cons {event : Event n} {past : List (Event n)} (log : s'.log = event :: past)
    (same : past.findSome? (Event.answers y) = s.lastCall y) :
    s'.lastCall y = (event.answers y).or (s.lastCall y) := by
  rw [Engine.lastCall, log, ← same]
  cases answer : event.answers y <;> simp [answer]

theorem background_of_stage1 (move : Stage1Move cfg s label s') :
    ∃ events, s'.log = events ++ s.log ∧ ∀ event ∈ events, event.background = true := by
  cases move with
  | inspectHoles => exact ⟨[_], rfl, by simp [Event.background]⟩
  | _ => exact ⟨[], rfl, by simp⟩

theorem background_of_stage2 (move : Stage2Move s label s') :
    ∃ events, s'.log = events ++ s.log ∧ ∀ event ∈ events, event.background = true := by
  cases move with
  | free => exact ⟨[_], rfl, by simp [Event.background]⟩
  | pwritev =>
    refine ⟨_ ++ [_], List.append_cons _ _ _, fun event member => ?_⟩
    rcases List.mem_append.mp member with wrote | issued
    · obtain ⟨p, -, rfl⟩ := List.mem_map.mp (List.mem_reverse.mp wrote)
      rfl
    · obtain rfl := List.mem_singleton.mp issued
      rfl
  | _ => exact ⟨[], rfl, by simp⟩

theorem background_of_closer (move : CloserMove s label s') :
    ∃ events, s'.log = events ++ s.log ∧ ∀ event ∈ events, event.background = true := by
  cases move with
  | destroy =>
    refine ⟨_, rfl, fun event member => ?_⟩
    obtain ⟨p, -, rfl⟩ := List.mem_map.mp member
    rfl
  | _ => exact ⟨[], rfl, by simp⟩

/-- What a critical section adds: its chunk if it merged, and no answer. -/
theorem latest_of_chunk {t : Fin n} {p : PageId} {call : Call} {done : Nat} {decision : Decision}
    (log : s'.log = chunkEvents t p call done decision ++ s.log) (file : File) (y : Nat) :
    s'.lastCall y = s.lastCall y ∧ s'.latest file y =
      if decision.merged = true ∧ call.cur done ≤ y ∧ y < call.cur done + call.chunk done then
        (some p, (call.cells done (y - call.cur done)).val)
      else s.latest file y := by
  obtain ⟨after, before, plain, events⟩ := chunkEvents_split t p call done decision
  have silent := findSome_of_plain (fun event among => plain event (List.mem_append_left _ among)) y
  have quiet := findSome_of_plain (fun event among => plain event (List.mem_append_right _ among)) y
  refine ⟨?_, ?_⟩
  · rw [Engine.lastCall, log, List.findSome?_append]
    suffices none : (chunkEvents t p call done decision).findSome? (Event.answers y) = none by
      rw [none]
      rfl
    refine List.findSome?_eq_none_iff.mpr fun event member => ?_
    cases event with
    | returned => simp [chunkEvents] at member
    | _ => rfl
  · rw [events] at log
    split
    · next landed =>
      refine latest_of_landed _ log ?_
      rw [List.findSome?_append, List.findSome?_append, silent, if_pos landed.1]
      simp [Event.lands, landed.2]
    · next elsewhere =>
      refine latest_of_silent _ log ?_
      rw [List.findSome?_append, List.findSome?_append, silent, quiet]
      cases merged : decision.merged with
      | false => rfl
      | true => simp_all [Event.lands]

/-! ## Bytes of a call and bytes of its chunk -/

/-- A byte whose place in the call lies in the chunk lies in the chunk on the device. -/
theorem Call.mem_chunk {call : Call} {done : Nat} (more : done < call.size) (covers : call.Covers y)
    (low : done ≤ call.index y) (high : call.index y < done + call.chunk done) :
    call.cur done ≤ y ∧ y < call.cur done + call.chunk done := by
  have place := call.base_add_intra done
  have room := call.intra_add_chunk_le done
  have top := call.base_add_zone_le done
  have small := call.size_lt
  have start := call.offset_lt
  obtain ⟨bound, -⟩ := covers
  rw [Call.index] at low high
  simp only [Call.cur, word] at *
  omega

/-- The byte of a chunk is the byte its call wants there. -/
theorem Call.value_of_chunk {call : Call} {done : Nat} (more : done < call.size)
    (low : call.cur done ≤ y) (high : y < call.cur done + call.chunk done) :
    (call.cells done (y - call.cur done)).val = call.value y := by
  rw [Call.value, (Call.covers_chunk more low high).2.1]
  rfl

/-! ## One step -/

/-- What a step does to the calls and to the latest writes. -/
inductive CallStep (file : File) (s s' : Engine n) : Prop where
  | keep (latest : ∀ y, s'.latest file y = s.latest file y)
      (answers : ∀ y, s'.lastCall y = s.lastCall y)
      (threads : ∀ t, (s'.fg t).progress = (s.fg t).progress ∨
        (s.fg t).progress = none ∧ ∃ call, (s'.fg t).progress = some (call, 0))
  | merge {t call done p} (more : done < call.size)
      (before : (s.fg t).progress = some (call, done))
      (after : (s'.fg t).progress = some (call, done + call.chunk done))
      (others : ∀ u ≠ t, s'.fg u = s.fg u)
      (latest : ∀ y, s'.latest file y =
        if call.cur done ≤ y ∧ y < call.cur done + call.chunk done then (some p, call.value y)
        else s.latest file y)
      (answers : ∀ y, s'.lastCall y = s.lastCall y)
  | answer {t call done rc} (before : (s.fg t).progress = some (call, done))
      (after : (s'.fg t).progress = none) (others : ∀ u ≠ t, s'.fg u = s.fg u)
      (finished : rc = .ok → call.size ≤ done)
      (latest : ∀ y, s'.latest file y = s.latest file y)
      (answers : ∀ y, s'.lastCall y = if call.Covers y then some (call, rc) else s.lastCall y)
  | direct {t call rc landed} (before : (s.fg t).progress = some (call, 0))
      (after : (s'.fg t).progress = none) (others : ∀ u ≠ t, s'.fg u = s.fg u)
      (inside : ∀ y, call.offset ≤ y → y < call.offset + landed → call.Covers y)
      (finished : rc = .ok → ∀ y, call.Covers y → call.offset ≤ y ∧ y < call.offset + landed)
      (latest : ∀ y, s'.latest file y =
        if call.offset ≤ y ∧ y < call.offset + landed then (none, call.value y)
        else s.latest file y)
      (answers : ∀ y, s'.lastCall y = if call.Covers y then some (call, rc) else s.lastCall y)

theorem Call.index_of_le {call : Call} (low : call.offset ≤ y) (bound : y < word) :
    call.index y = y - call.offset := by
  have start := call.offset_lt
  rw [Call.index]
  simp only [word] at *
  omega

/-- Where a `pwrite` lands its call covers, and it lands everywhere if it lands whole. -/
theorem Call.covers_of_landed {call : Call} {result : IoResult}
    (fits : result.Fits call.offset call.size) (low : call.offset ≤ y)
    (high : y < call.offset + result.landed) : call.Covers y := by
  obtain ⟨within, top⟩ := fits
  have bound : y < word := by
    simp only [maxOffset, word] at *
    omega
  refine ⟨bound, ?_⟩
  rw [Call.index_of_le low bound]
  omega

theorem Call.landed_of_covers {call : Call} {result : IoResult}
    (fits : result.Fits call.offset call.size) (whole : result.landed = call.size)
    (covers : call.Covers y) : call.offset ≤ y ∧ y < call.offset + result.landed := by
  obtain ⟨within, top⟩ := fits
  obtain ⟨bound, inside⟩ := covers
  have start := call.offset_lt
  rw [Call.index] at inside
  simp only [maxOffset, word] at *
  omega

theorem lastCall_of_returned {t : Fin n} {call : Call} {rc : ReturnCode} {past : List (Event n)}
    (log : s'.log = .returned t call rc :: past)
    (same : past.findSome? (Event.answers y) = s.lastCall y) :
    s'.lastCall y = if call.Covers y then some (call, rc) else s.lastCall y := by
  rw [lastCall_cons log same, Event.answers]
  split <;> rfl

theorem latest_of_returned {t : Fin n} {call : Call} {rc : ReturnCode}
    (log : s'.log = .returned t call rc :: s.log) : s'.latest file y = s.latest file y :=
  latest_of_silent [_] log rfl

/-- A step that stays inside one call and records only background events. -/
theorem CallStep.of_progress {t : Fin n} (others : ∀ u ≠ t, s'.fg u = s.fg u)
    (same : (s'.fg t).progress = (s.fg t).progress) (events : List (Event n))
    (log : s'.log = events ++ s.log) (background : ∀ event ∈ events, event.background = true) :
    CallStep file s s' := by
  refine .keep (fun y => (same_of_background log background y).1 file)
    (fun y => (same_of_background log background y).2) fun u => .inl ?_
  by_cases mine : u = t
  · rw [mine, same]
  · rw [others u mine]

theorem CallStep.of_fg (sound : Sound cfg s) (move : FgMove cfg s label s') :
    CallStep file s s' := by
  have others : ∀ {t : Fin n} {f : Fg}, ∀ u ≠ t, update s.fg t f u = s.fg u :=
    fun u differs => Function.update_of_ne differs _ _
  cases move with
  -- An empty call answers at once and has written nothing.
  | @callZero t call position running empty =>
    refine .keep (fun y => latest_of_returned rfl) (fun y => ?_) fun u => .inl rfl
    rw [lastCall_of_returned rfl rfl, if_neg]
    rintro ⟨-, inside⟩
    omega
  | @callDirect t call position | @callScrap t call position =>
    refine .keep (fun y => rfl) (fun y => rfl) fun u => ?_
    by_cases mine : u = t
    · subst mine
      exact .inr ⟨by rw [position]; rfl, call, by simp [Fg.progress, ChunkPc.merged]⟩
    · exact .inl (by simp [mine])
  | gatePass position | gatePark position | parkedPass position | lookupFound position
  | lockPage position | unlockRetry position =>
    exact .of_progress others (by simp [position, Fg.progress, ChunkPc.merged]) [] rfl (by simp)
  | @partialInc t call done p after position | @partialPush t call done p after position
  | @fullInc t call done p after position | @fullEnter t call done p after position
  | @fullPush t call done p after position =>
    refine .of_progress others ?_ [] rfl (by simp)
    cases after <;> simp [position, Fg.progress, ChunkPc.merged]
  | unlockMore position =>
    exact .of_progress others (by simp [position, Fg.progress, ChunkPc.merged]) [] rfl (by simp)
  | alloc position =>
    exact .of_progress others (by simp [position, Fg.progress, ChunkPc.merged]) [_] rfl
      (by simp [Event.background])
  | detach position =>
    exact .of_progress others (by simp [position, Fg.progress, ChunkPc.merged]) _ rfl
      (by simp [Event.background])
  | @oomPage t call done position =>
    refine .answer (t := t) (by rw [position]; rfl) (by simp [Fg.progress]) others (fun ok => ?_)
      (fun y => latest_of_returned rfl) fun y => lastCall_of_returned rfl rfl
    simp at ok
  | @oomDirect t call position =>
    refine .answer (t := t) (by rw [position]; rfl) (by simp [Fg.progress]) others (fun ok => ?_)
      (fun y => latest_of_returned rfl) fun y => lastCall_of_returned rfl rfl
    simp at ok
  -- The loop has passed the end of the call, so every byte of it has been merged.
  | @unlockDone t call done p position last =>
    refine .answer (t := t) (by rw [position]; rfl) (by simp [Fg.progress]) others (fun _ => ?_)
      (fun y => latest_of_returned rfl) fun y => lastCall_of_returned rfl rfl
    exact Nat.not_lt.mp last
  | @decide t call done p created position decision decided =>
    have way := Decided.of_eq decided
    have more := sound.ready.progress t call done _ position
    have before : (s.fg t).progress = some (call, done) := by rw [position]; rfl
    -- Only an accepted merge counts as progress; a sealed page sends the thread back.
    have next : (update s.fg t (.scrap call done (decision.next p)) t).progress =
        some (call, if decision.merged then done + call.chunk done else done) := by
      rw [Function.update_self]
      cases way <;> simp [Decision.next, Fg.progress, ChunkPc.merged]
    cases merged : decision.merged with
    | true =>
      simp only [merged, if_true] at next
      refine .merge (p := p) more before next others (fun y => ?_) fun y => (latest_of_chunk rfl file y).1
      rw [(latest_of_chunk (s := s) rfl file y).2, merged]
      split
      · next landed => rw [if_pos landed.2, Call.value_of_chunk more landed.2.1 landed.2.2]
      · next elsewhere => rw [if_neg (by simpa using elsewhere)]
    | false =>
      simp only [merged] at next
      refine .keep (fun y => ?_) (fun y => (latest_of_chunk rfl file y).1) fun u => .inl ?_
      · rw [(latest_of_chunk (s := s) rfl file y).2, if_neg (by simp [merged])]
      · by_cases mine : u = t
        · rw [mine, before]
          exact next
        · exact congrArg Fg.progress (others u mine)
  -- What lands is a prefix of the request, the whole of it if the answer is no error.
  | @pwrite t call result position fits =>
    refine .direct (t := t) (by rw [position]; rfl) (by simp [Fg.progress])
      others (fun y low high => Call.covers_of_landed fits low high) (fun ok y covers => ?_)
      (fun y => ?_) fun y => lastCall_of_returned rfl rfl
    · refine Call.landed_of_covers fits ?_ covers
      split at ok
      · next whole => rw [whole]; rfl
      · simp at ok
    · by_cases inside : call.offset ≤ y ∧ y < call.offset + result.landed
      · have bound := (Call.covers_of_landed fits inside.1 inside.2).1
        rw [if_pos inside]
        refine latest_of_landed (s := s) [_, _] rfl ?_
        simp [List.findSome?, Event.lands, inside, Call.value, Call.index_of_le inside.1 bound]
      · rw [if_neg inside]
        refine latest_of_silent [_, _] rfl ?_
        simp [List.findSome?, Event.lands, inside]

/-- What a step of any thread does to the calls. -/
theorem call_step (sound : Sound cfg s) (move : Move cfg s label s') (file : File) :
    CallStep file s s' := by
  have silent : (∃ events, s'.log = events ++ s.log ∧ ∀ event ∈ events, event.background = true) →
      label.thread = none → CallStep file s s' := by
    rintro ⟨events, log, background⟩ other
    have same := same_of_background log background
    refine .keep (fun y => (same y).1 file) (fun y => (same y).2) fun t => .inl ?_
    rw [fg_frame move (by rw [other]; simp)]
  cases move with
  | fg move => exact .of_fg sound move
  | stage1 move => exact silent (background_of_stage1 move) (by cases move <;> rfl)
  | stage2 move => exact silent (background_of_stage2 move) (by cases move <;> rfl)
  | closer move => exact silent (background_of_closer move) (by cases move <;> rfl)

/-! ## The invariant -/

namespace Answered

theorem init (cfg : Config) (file : File) (scratch : Nat → UInt8) :
    Answered file (Engine.init n cfg file scratch) := by
  constructor
  · intro t call done progress
    simp [Engine.init, Fg.progress] at progress
  · intro y _
    simp [Promised, Engine.lastCall, Engine.latest, Engine.init]

/-- The call of another thread shares no byte with a call in progress. -/
theorem rival (apart : Apart s) {t u : Fin n} (differs : u ≠ t) {call other : Call}
    {done done' : Nat} (mine : (s.fg t).progress = some (call, done))
    (theirs : (s.fg u).progress = some (other, done')) (covers : other.Covers y) :
    ¬ call.Covers y := by
  have inCall : ∀ {f : Fg} {call : Call} {done : Nat}, f.progress = some (call, done) →
      call ∈ f.call := by
    intro f call done progress
    cases f <;> simp_all [Fg.progress, Fg.call]
  exact fun also => apart t u differs.symm call (inCall mine) other (inCall theirs) y ⟨also, covers⟩

/-- A byte that no thread has delivered after an answer that does not cover it, none had before. -/
theorem undelivered {t : Fin n} {call : Call} {done : Nat} (others : ∀ u ≠ t, s'.fg u = s.fg u)
    (before : (s.fg t).progress = some (call, done)) (apart : ¬ call.Covers y)
    (none : ∀ u, ¬ (s'.fg u).Delivered y) (u : Fin n) : ¬ (s.fg u).Delivered y := by
  rintro ⟨other, done', progress, covers, early⟩
  by_cases mine : u = t
  · subst mine
    obtain ⟨rfl, -⟩ : call = other ∧ done = done' := by simpa using before.symm.trans progress
    exact apart covers
  · exact none u ⟨other, done', by rw [others u mine, progress], covers, early⟩

theorem step (answered : Answered file s) (sound : Sound cfg s) (apart : Apart s)
    (move : Move cfg s label s') : Answered file s' := by
  cases call_step sound move file with
  | keep latest answers threads =>
    refine ⟨fun t call done progress y covers early => ?_, fun y none => ?_⟩
    · rcases threads t with same | ⟨-, other, start⟩
      · rw [latest]
        exact answered.active t call done (same ▸ progress) y covers early
      -- A call that has just begun has delivered nothing.
      · obtain ⟨-, rfl⟩ : other = call ∧ 0 = done := by simpa using start.symm.trans progress
        simp at early
    · rw [Promised, answers, latest]
      refine answered.settled y fun t delivered => none t ?_
      obtain ⟨call, done, progress, both⟩ := delivered
      rcases threads t with same | ⟨idle, -⟩
      · exact ⟨call, done, same.trans progress, both⟩
      · simp [idle] at progress
  | @merge t call done p more before after others latest answers =>
    have inside : ∀ {y}, call.cur done ≤ y ∧ y < call.cur done + call.chunk done →
        call.Covers y ∧ done ≤ call.index y ∧ call.index y < done + call.chunk done := by
      rintro y ⟨low, high⟩
      have place := (Call.covers_chunk more low high).2.1
      exact ⟨Call.covers_of_chunk more low high, by omega, by omega⟩
    refine ⟨fun u other done' progress y covers early => ?_, fun y none => ?_⟩
    · rw [latest]
      by_cases mine : u = t
      · subst mine
        obtain ⟨rfl, rfl⟩ : call = other ∧ done + call.chunk done = done' := by
          simpa using after.symm.trans progress
        split
        · rfl
        · next outside =>
          refine answered.active u call done before y covers (by_contra fun late => outside ?_)
          exact Call.mem_chunk more covers (Nat.not_lt.mp late) early
      -- Another call has no byte in common with this one.
      · rw [others u mine] at progress
        have apart := rival apart mine before progress covers
        rw [if_neg fun landed => apart (inside landed).1]
        exact answered.active u other done' progress y covers early
    -- Nobody has delivered `y`, so it is not in this chunk.
    · have outside : ¬ (call.cur done ≤ y ∧ y < call.cur done + call.chunk done) := fun landed =>
        none t ⟨call, _, after, (inside landed).1, (inside landed).2.2⟩
      rw [Promised, answers, latest, if_neg outside]
      refine answered.settled y fun u delivered => none u ?_
      obtain ⟨other, done', progress, covers, early⟩ := delivered
      by_cases mine : u = t
      · subst mine
        obtain ⟨rfl, rfl⟩ : call = other ∧ done = done' := by simpa using before.symm.trans progress
        exact ⟨call, _, after, covers, by omega⟩
      · exact ⟨other, done', by rw [others u mine, progress], covers, early⟩
  | @answer t call done rc before after others finished latest answers =>
    refine ⟨fun u other done' progress y covers early => ?_, fun y none => ?_⟩
    · rw [latest]
      by_cases mine : u = t
      · simp [mine, after] at progress
      · rw [others u mine] at progress
        exact answered.active u other done' progress y covers early
    · rw [Promised, answers, latest]
      -- A byte of the call was delivered by it, unless the call failed.
      by_cases covers : call.Covers y
      · rw [if_pos covers]
        intro ok
        exact answered.active t call done before y covers (lt_of_lt_of_le covers.2 (finished ok))
      · rw [if_neg covers]
        exact answered.settled y (undelivered others before covers none)
  | @direct t call rc landed before after others inside finished latest answers =>
    refine ⟨fun u other done' progress y covers early => ?_, fun y none => ?_⟩
    · by_cases mine : u = t
      · simp [mine, after] at progress
      · rw [others u mine] at progress
        have apart := rival apart mine before progress covers
        rw [latest, if_neg fun landed => apart (inside y landed.1 landed.2)]
        exact answered.active u other done' progress y covers early
    · rw [Promised, answers, latest]
      by_cases covers : call.Covers y
      · rw [if_pos covers]
        intro ok
        rw [if_pos (finished ok y covers)]
      · rw [if_neg covers, if_neg fun landed => covers (inside y landed.1 landed.2)]
        exact answered.settled y (undelivered others before covers none)

end Answered

end NoxDB
