import NoxDB.Engine.Backpressure

/-! # The sweep of `nox_close`

`page_index_foreach` walks the chains without a lock and reads `p->next` after it has
handed `p` to the stages.  The walk meets every page that was resident when it started,
once and in order, as long as Stage-2 does not unlink the page the walk stands on; and
`page_index_destroy` finds nothing to discard if no read fails after that.  What was
resident at the start and what has been pushed since is kept beside the engine.
-/

namespace NoxDB

open Function (update)
open Library.Runs
open Library.Lists

variable {n : Nat}

/-- The pages resident when the walk started, and those it has pushed since. -/
structure Sweep where
  start : List PageId
  handed : List PageId
deriving DecidableEq, Repr

/-- What the step adds to the record. -/
def Sweep.observe (sweep : Sweep) (s : Engine n) : Label n → Sweep
  | .closer =>
    match s.closer with
    | .firstDrain => ⟨s.resident, []⟩
    | .sweepEnqueue _ _ p .partialPush | .sweepEnqueue _ _ p .fullPush =>
      { sweep with handed := sweep.handed ++ [p] }
    | _ => sweep
  | _ => sweep

/-- The engine beside the record of its sweep. -/
def sweepStep (cfg : Config) (o : Engine n × Sweep) (label : Label n) : Option (Engine n × Sweep) :=
  (o.1.step cfg label).map fun s => (s, o.2.observe o.1 label)

/-- The page Stage-2 is about to unlink. -/
def Stage2.unlinking : Stage2 → Option PageId
  | .detaching _ (p :: _) => some p
  | _ => none

/-- Stage-2 does not unlink the page the walk stands on, and no read fails once the walk has
started. -/
def SweepSafe (s : Engine n) : Label n → Prop
  | .stage2 => ∀ p ∈ s.s2.unlinking, s.closer.walked ≠ some p
  | .pread .fail => s.closer.phase < 3
  | _ => True

instance (s : Engine n) (label : Label n) : Decidable (SweepSafe s label) :=
  match label with
  | .stage2 => inferInstanceAs (Decidable (∀ p ∈ s.s2.unlinking, s.closer.walked ≠ some p))
  | .pread .fail => inferInstanceAs (Decidable (_ < _))
  | .pread (.count _) | .call _ _ | .fg _ | .alloc _ _ _ | .oom _ | .pwrite _ _ | .stage1
  | .pwritev _ | .close | .closer | .closeFd _ => inferInstanceAs (Decidable True)

namespace Engine

/-- The chains after chain `b`, in the order of the walk. -/
def later (s : Engine n) (b : Nat) : List PageId :=
  (List.range' (b + 1) (piBuckets - (b + 1))).flatMap s.buckets

/-- The pages the walk has still to push. -/
def ahead (s : Engine n) : List PageId :=
  match s.closer with
  | .sweep _ b none => s.later b
  | .sweep _ b (some p) | .sweepEnqueue _ b p _ => p :: after (s.buckets b) p ++ s.later b
  | .sweepUnlock _ b p | .sweepNext _ b p => after (s.buckets b) p ++ s.later b
  | _ => []

end Engine

structure Sweeping (s : Engine n) (sweep : Sweep) : Prop where
  fresh : s.closer.phase < 3 → sweep.handed = []
  order : 3 ≤ s.closer.phase → sweep.start = sweep.handed ++ s.ahead
  nodup : sweep.start.Nodup
  linked : ∀ b p, s.closer.bucket = some b → s.closer.walked = some p → p ∈ s.buckets b
  unfaulted : s.closer ≠ .fault
  resident : 3 ≤ s.closer.phase → ∀ b, ∀ p ∈ s.buckets b, p ∈ sweep.start
  unfailed : 3 ≤ s.closer.phase → ∀ p, s.s1 ≠ .readFailed p ∧ s.s1 ≠ .finish p false
  carried : ∀ p ∈ sweep.handed, ¬ s.custody.Stranded p

variable {cfg : Config} {file : File} {scratch : Nat → UInt8} {s s' : Engine n} {label : Label n}
  {sweep : Sweep}

/-! ## What the stages do to the chains -/

/-- Stage-2 takes out one page, which is queued, and leaves the chains alone otherwise. -/
theorem buckets_stage2 (sound : Sound cfg s) (move : Stage2Move s label s') :
    s'.buckets = s.buckets ∨ ∃ p, s.s2.unlinking = some p ∧ p ∈ s.custody.pipe ∧
      ∃ test, (∀ b, ∀ x ∈ s.buckets b, test x = true → x = p) ∧
        ∀ b, s'.buckets b = s.buckets b ∨ s'.buckets b = (s.buckets b).eraseP test := by
  cases move with
  | @unlink done p todo position linked free =>
    have queued : p ∈ s.custody.pipe := Custody.mem_pipe_of_waiting (by
      simp [Custody.waiting, Engine.custody, position, Stage2.kept])
    refine .inr ⟨p, by rw [position]; rfl, queued, fun q => s.addr q == s.addr p, ?_, fun b => ?_⟩
    · intro b x member same
      exact sound.owned.address x p (sound.owned.indexed b x member).1 (sound.owned.live p queued)
        (by simpa [Engine.custody] using same)
    · by_cases same : b = piHash (s.pages p).base
      · subst same
        exact .inr (by simp)
      · exact .inl (by simp [same])
  | _ => exact .inl rfl

theorem SweepSafe.elsewhere (safe : SweepSafe s label) (move : Stage2Move s label s') {p : PageId}
    (unlinking : s.s2.unlinking = some p) : s.closer.walked ≠ some p := by
  cases move with
  | pwritev position => simp [position, Stage2.unlinking] at unlinking
  | _ => exact safe p unlinking

/-- A chain without the page is left alone. -/
theorem eraseP_absent {chain chain' : List PageId} {p : PageId} {test : PageId → Bool}
    (only : ∀ x ∈ chain, test x = true → x = p) (absent : p ∉ chain)
    (erased : chain' = chain ∨ chain' = chain.eraseP test) : chain' = chain := by
  rcases erased with same | rfl
  · exact same
  · exact List.eraseP_of_forall_not fun x member passes => absent (only x member passes ▸ member)

theorem later_congr {b : Nat} (same : ∀ b' > b, s'.buckets b' = s.buckets b') :
    s'.later b = s.later b := by
  apply List.flatMap_congr
  intro b' member
  exact same b' (List.mem_range'_1.mp member).1

theorem later_succ (s : Engine n) {b : Nat} (more : b + 1 < piBuckets) :
    s.later b = s.buckets (b + 1) ++ s.later (b + 1) := by
  obtain ⟨k, room⟩ : ∃ k, piBuckets - (b + 1) = k + 1 := ⟨piBuckets - (b + 1) - 1, by omega⟩
  have rest : piBuckets - (b + 1 + 1) = k := by omega
  rw [Engine.later, room, List.range'_succ, List.flatMap_cons, Engine.later, rest]

theorem later_last (s : Engine n) {b : Nat} (last : ¬ b + 1 < piBuckets) : s.later b = [] := by
  rw [Engine.later, Nat.sub_eq_zero_of_le (Nat.not_lt.mp last)]
  rfl

theorem resident_eq (s : Engine n) : s.resident = s.buckets 0 ++ s.later 0 := by
  rw [Engine.resident, List.range_eq_range', List.range'_succ, List.flatMap_cons]
  rfl

namespace Sweeping

/-- The stages do not touch what the walk has still to visit. -/
theorem ahead_stage2 (sweeping : Sweeping s sweep) (sound : Sound cfg s)
    (safe : SweepSafe s label) (move : Stage2Move s label s') : s'.ahead = s.ahead := by
  have closer : s'.closer = s.closer := by cases move <;> rfl
  rcases buckets_stage2 sound move with same | ⟨p, unlinking, queued, test, only, erased⟩
  · simp only [Engine.ahead, Engine.later, closer, same]
  · have elsewhere := safe.elsewhere move unlinking
    have later : ∀ b, s.closer.bucket = some b → s'.later b = s.later b := fun b bucket =>
      later_congr fun b' past => eraseP_absent (only b')
        (fun member => sound.walk.later b bucket b' past p member queued) (erased b')
    have following : ∀ b q, s.closer.bucket = some b → s.closer.walked = some q →
        after (s'.buckets b) q = after (s.buckets b) q := by
      intro b q bucket walked
      rcases erased b with same | same
      · rw [same]
      · rw [same]
        apply after_eraseP (sweeping.linked b q bucket walked) (only b)
        · rintro rfl
          exact elsewhere walked
        · intro member
          exact sound.walk.ahead b q p bucket walked
            (sublist_of_mem_after (sweeping.linked b q bucket walked) member) queued
    simp only [Engine.ahead, closer]
    cases position : s.closer with
    | sweep err b cur =>
      cases cur with
      | none => simp only [later b (by rw [position]; rfl)]
      | some q =>
        simp only [later b (by rw [position]; rfl),
          following b q (by rw [position]; rfl) (by rw [position]; rfl)]
    | sweepEnqueue err b q e | sweepUnlock err b q | sweepNext err b q =>
      simp only [later b (by rw [position]; rfl),
        following b q (by rw [position]; rfl) (by rw [position]; rfl)]
    | _ => rfl

theorem init (cfg : Config) (file : File) (scratch : Nat → UInt8) :
    Sweeping (Engine.init n cfg file scratch) ⟨[], []⟩ := by
  constructor <;> simp [Engine.init, Closer.phase, Closer.bucket]

/-- Nothing that was handed over is dropped. -/
theorem carried_step (sweeping : Sweeping s sweep) (sound : Sound cfg s)
    (move : Move cfg s label s') : ∀ p ∈ sweep.handed, ¬ s'.custody.Stranded p := by
  intro p handed stranded
  rcases stranded_step sound move stranded with before | ⟨-, dropping⟩
  · exact sweeping.carried p handed before
  · have late : 3 ≤ s.closer.phase := by
      by_contra early
      simp [sweeping.fresh (Nat.lt_of_not_le early)] at handed
    cases position : s.s1 with
    | finish q ok =>
      cases ok with
      | true => simp [position, Stage1.dropping] at dropping
      | false => exact (sweeping.unfailed late q).2 position
    | _ => simp [position, Stage1.dropping] at dropping

theorem fg (sweeping : Sweeping s sweep) (sound : Sound cfg s) (move : FgMove cfg s label s') :
    Sweeping s' sweep := by
  have carried := sweeping.carried_step sound (.fg move)
  have running := sound.phases.running move
  have closer : s'.closer = s.closer := by cases move <;> rfl
  have early : ¬ 3 ≤ s'.closer.phase := by rw [closer, running]; decide
  have walk := Closer.bucket_of_running running
  refine ⟨fun _ => sweeping.fresh (by omega), fun late => absurd late early, sweeping.nodup, ?_,
    closer ▸ sweeping.unfaulted, fun late => absurd late early, fun late => absurd late early,
    carried⟩
  intro b p bucket
  simp [closer, walk] at bucket

theorem stage1 (sweeping : Sweeping s sweep) (sound : Sound cfg s) (safe : SweepSafe s label)
    (move : Stage1Move cfg s label s') : Sweeping s' sweep := by
  have carried := sweeping.carried_step sound (.stage1 move)
  have closer : s'.closer = s.closer := by cases move <;> rfl
  have buckets : s'.buckets = s.buckets := by cases move <;> rfl
  have ahead : s'.ahead = s.ahead := by simp only [Engine.ahead, Engine.later, closer, buckets]
  have unfailed : 3 ≤ s.closer.phase → ∀ p, s'.s1 ≠ .readFailed p ∧ s'.s1 ≠ .finish p false := by
    intro late
    cases move with
    | readFailed position => exact absurd position (sweeping.unfailed late _).1
    | preadFail => exact absurd late (Nat.not_le.mpr safe)
    | _ => simp
  obtain ⟨fresh, order, nodup, linked, unfaulted, resident, -, -⟩ := sweeping
  rw [← closer] at fresh order unfaulted resident unfailed
  rw [← ahead] at order
  rw [← buckets] at resident
  refine ⟨fresh, order, nodup, fun b p bucket walked => ?_, unfaulted, resident, unfailed, carried⟩
  rw [buckets]
  exact linked b p (closer ▸ bucket) (closer ▸ walked)

theorem stage2 (sweeping : Sweeping s sweep) (sound : Sound cfg s) (safe : SweepSafe s label)
    (move : Stage2Move s label s') : Sweeping s' sweep := by
  have carried := sweeping.carried_step sound (.stage2 move)
  have ahead := sweeping.ahead_stage2 sound safe move
  have closer : s'.closer = s.closer := by cases move <;> rfl
  have first : s'.s1 = s.s1 := by cases move <;> rfl
  have fewer : ∀ b, ∀ p ∈ s'.buckets b, p ∈ s.buckets b := by
    intro b p member
    rcases buckets_stage2 sound move with same | ⟨q, -, -, test, -, erased⟩
    · exact same ▸ member
    · rcases erased b with same | same
      · exact same ▸ member
      · exact List.mem_of_mem_eraseP (same ▸ member)
  have linked : ∀ b p, s.closer.bucket = some b → s.closer.walked = some p → p ∈ s'.buckets b := by
    intro b p bucket walked
    have before := sweeping.linked b p bucket walked
    rcases buckets_stage2 sound move with same | ⟨q, unlinking, -, test, only, erased⟩
    · exact same ▸ before
    · rcases erased b with same | same
      · exact same ▸ before
      · rw [same]
        refine (List.mem_eraseP_of_neg fun passes => ?_).mpr before
        exact safe.elsewhere move unlinking (only b p before passes ▸ walked)
  refine ⟨fun early => sweeping.fresh (closer ▸ early), fun late => ?_, sweeping.nodup,
    fun b p bucket walked => linked b p (closer ▸ bucket) (closer ▸ walked),
    closer ▸ sweeping.unfaulted,
    fun late b p member => sweeping.resident (closer ▸ late) b p (fewer b p member),
    fun late => first ▸ sweeping.unfailed (closer ▸ late), carried⟩
  rw [ahead]
  exact sweeping.order (closer ▸ late)

/-- The walk enters a chain at its first page. -/
theorem ahead_enter (s : Engine n) (err : Bool) (b : Nat) :
    Engine.ahead { s with closer := .sweep err b (s.buckets b).head? } =
      s.buckets b ++ s.later b := by
  cases chain : s.buckets b with
  | nil => rfl
  | cons p rest =>
    have following : after (s.buckets b) p = rest := by rw [chain, after_head]
    simp only [Engine.ahead, List.head?_cons, following]
    rfl

/-- The walk goes on to the next page of its chain. -/
theorem ahead_next (s : Engine n) (err : Bool) {b : Nat} {p : PageId}
    (nodup : (s.buckets b).Nodup) (member : p ∈ s.buckets b) :
    Engine.ahead { s with closer := .sweep err b (s.nextLink b p) } =
      after (s.buckets b) p ++ s.later b := by
  have link : s.nextLink b p = (after (s.buckets b) p).head? := (head?_after _ _).symm
  rw [link]
  cases rest : after (s.buckets b) p with
  | nil => rfl
  | cons q rest' =>
    have following := after_next nodup member rest
    simp only [Engine.ahead, List.head?_cons, following]
    rfl

/-- `enqueue_one` pushes a page that is in no queue. -/
theorem enqueueOne_pushes {page : ScrapPage Cell} (idle : page.inQueue = false) :
    ∃ e, (Engine.enqueueOne page).2 = some e := by
  simp only [Engine.enqueueOne, enqueueFull, enqueuePartial]
  split
  · exact ⟨.fullInc, by simp [idle]⟩
  · exact ⟨.partialInc, by simp [idle]⟩

/-- The first drain leaves nothing queued, and the walk starts with everything ahead. -/
theorem start (sound : Sound cfg s) (drained : s.pending = 0) :
    Sweeping { s with closer := .sweep s.ioErr 0 (s.buckets 0).head? } ⟨s.resident, []⟩ := by
  have hand := (Drained.of_pending sound.pending drained).hand
  have nodup := nodup_resident sound.owned
  have among : ∀ b, ∀ p ∈ s.buckets b, p ∈ s.resident := fun b p member =>
    (mem_resident sound.owned).mpr ⟨b, member⟩
  have whole := resident_eq s
  -- The list of all chains is not to be evaluated.
  generalize s.resident = pages at nodup among whole ⊢
  refine ⟨fun _ => rfl, fun _ => ?_, nodup, ?_, by simp, fun _ => among, fun _ p => ⟨?_, ?_⟩, by simp⟩
  · rw [ahead_enter, ← whole, List.nil_append]
  · rintro _ p ⟨⟩ walked
    exact List.mem_of_mem_head? walked
  · intro (failed : s.s1 = _)
    simp [failed, Stage1.pages] at hand
  · intro (failed : s.s1 = _)
    simp [failed, Stage1.pages] at hand

theorem closer (sweeping : Sweeping s sweep) (sound : Sound cfg s) (move : CloserMove s label s') :
    Sweeping s' (sweep.observe s label) := by
  have carried := sweeping.carried_step sound (.closer move)
  -- A step that leaves the record and what is ahead as they are.
  have keep : sweep.observe s label = sweep → s'.s1 = s.s1 → s'.buckets = s.buckets →
      (s.closer.phase < 3 ↔ s'.closer.phase < 3) → (3 ≤ s.closer.phase → s'.ahead = s.ahead) →
      (∀ b p, s'.closer.bucket = some b → s'.closer.walked = some p → p ∈ s.buckets b) →
      s'.closer ≠ .fault → Sweeping s' (sweep.observe s label) := by
    intro record first chains phases ahead linked unfaulted
    rw [record]
    refine ⟨fun early => sweeping.fresh (phases.mpr early), fun late => ?_, sweeping.nodup, ?_,
      unfaulted, fun late => ?_, fun late => ?_, carried⟩
    · have late : 3 ≤ s.closer.phase := by omega
      rw [ahead late]
      exact sweeping.order late
    · rw [chains]
      exact linked
    · rw [chains]
      exact sweeping.resident (by omega)
    · rw [first]
      exact sweeping.unfailed (by omega)
  cases move with
  | close position idle =>
    exact keep rfl rfl rfl (by simp [position, Closer.phase]) (by simp [position, Closer.phase])
      (by simp [Closer.bucket]) (by simp)
  | disarm position =>
    exact keep (by simp [Sweep.observe, position]) rfl rfl (by simp [position, Closer.phase])
      (by simp [position, Closer.phase]) (by simp [Closer.bucket]) (by simp)
  | firstDrain position drained =>
    have record : sweep.observe s .closer = ⟨s.resident, []⟩ := by simp [Sweep.observe, position]
    rw [record]
    exact start sound drained
  | @sweepBucket err b position more =>
    refine keep (by simp [Sweep.observe, position]) rfl rfl (by simp [position, Closer.phase])
      (fun _ => ?_) ?_ (by simp)
    · rw [ahead_enter, ← later_succ s more]
      simp [Engine.ahead, position]
    · rintro _ p ⟨⟩ walked
      exact List.mem_of_mem_head? walked
  | sweepDone position last =>
    exact keep (by simp [Sweep.observe, position]) rfl rfl (by simp [position, Closer.phase])
      (fun _ => by simp [Engine.ahead, position, later_last s last]) (by simp [Closer.bucket])
      (by simp)
  | sweepFault position gone =>
    have alive := (sound.owned.indexed _ _ (sound.walk.current _ _ _ position).1).1.2
    exact absurd gone (by simpa [Engine.custody] using alive)
  | @sweepLock err b p position alive free page enqueue chosen =>
    obtain ⟨member, outside⟩ := sound.walk.current err b p position
    obtain ⟨e, pushes⟩ := enqueueOne_pushes (idle_of_unqueued sound.owned outside free)
    obtain rfl : enqueue = some e := (congrArg Prod.snd chosen).trans pushes
    refine keep (by simp [Sweep.observe, position]) rfl rfl
      (by simp [position, Engine.sweepAfter, Closer.phase])
      (fun _ => by simp [Engine.ahead, position, Engine.sweepAfter, Engine.later]) ?_
      (by simp [Engine.sweepAfter])
    rintro _ _ ⟨⟩ ⟨⟩
    exact member
  | partialInc position | fullInc position | fullEnter position | sweepUnlock position =>
    exact keep (by simp [Sweep.observe, position]) rfl rfl (by simp [position, Closer.phase])
      (fun _ => by simp [Engine.ahead, position, Engine.later])
      (fun b p bucket walked => sweeping.linked b p (by rw [position]; exact bucket)
        (by rw [position]; exact walked)) (by simp)
  | @partialPush err b p position | @fullPush err b p position =>
    have late : 3 ≤ s.closer.phase := by simp [position, Closer.phase]
    have record : sweep.observe s .closer = { sweep with handed := sweep.handed ++ [p] } := by
      simp [Sweep.observe, position]
    have linked := sweeping.linked b p (by rw [position]; rfl) (by rw [position]; rfl)
    rw [record]
    refine ⟨by simp [Closer.phase], fun _ => ?_, sweeping.nodup, ?_, by simp,
      fun _ => sweeping.resident late, fun _ => sweeping.unfailed late, fun q among stranded => ?_⟩
    · rw [sweeping.order late]
      simp [Engine.ahead, position, Engine.later]
    · rintro _ _ ⟨⟩ ⟨⟩
      exact linked
    · rcases List.mem_append.mp among with before | new
      · exact carried q before stranded
      · obtain rfl := List.mem_singleton.mp new
        exact stranded.outside (by simp [Custody.pipe, Custody.waiting, Engine.custody])
  | @sweepNextFault err b p position gone =>
    have linked := sweeping.linked b p (by rw [position]; rfl) (by rw [position]; rfl)
    have alive := (sound.owned.indexed b p linked).1.2
    exact absurd gone (by simpa [Engine.custody] using alive)
  | @sweepNext err b p position alive =>
    have linked := sweeping.linked b p (by rw [position]; rfl) (by rw [position]; rfl)
    refine keep (by simp [Sweep.observe, position]) rfl rfl (by simp [position, Closer.phase])
      (fun _ => ?_) ?_ (by simp)
    · rw [ahead_next s err (sound.owned.chain b) linked]
      simp [Engine.ahead, position]
    · rintro _ q ⟨⟩ (link : s.nextLink b p = some q)
      obtain ⟨before, rest, chain⟩ := exists_of_next link
      simp [chain]
  | secondDrain position | stopping position | shutdown1 position | join1 position
  | shutdown2 position | join2 position | lastCheck position | closeFd position =>
    exact keep (by simp [Sweep.observe, position]) rfl rfl (by simp [position, Closer.phase])
      (fun _ => by simp [Engine.ahead, position]) (by simp [Closer.bucket]) (by simp)
  | destroy position =>
    have record : sweep.observe s .closer = sweep := by simp [Sweep.observe, position]
    have late : 3 ≤ s.closer.phase := by simp [position, Closer.phase]
    rw [record]
    refine ⟨by simp [Closer.phase], fun _ => ?_, sweeping.nodup, by simp [Closer.bucket], by simp,
      by simp, fun _ => sweeping.unfailed late, carried⟩
    rw [sweeping.order late]
    simp [Engine.ahead, position]

theorem step (sweeping : Sweeping s sweep) (sound : Sound cfg s) (safe : SweepSafe s label)
    (move : Move cfg s label s') : Sweeping s' (sweep.observe s label) := by
  cases move with
  | fg move =>
    have record : sweep.observe s label = sweep := by cases move <;> rfl
    rw [record]
    exact sweeping.fg sound move
  | stage1 move =>
    have record : sweep.observe s label = sweep := by cases move <;> rfl
    rw [record]
    exact sweeping.stage1 sound safe move
  | stage2 move =>
    have record : sweep.observe s label = sweep := by cases move <;> rfl
    rw [record]
    exact sweeping.stage2 sound safe move
  | closer move => exact sweeping.closer sound move

/-- When the walk is over, everything has been handed over. -/
theorem handed_all (sweeping : Sweeping s sweep) (past : 4 ≤ s.closer.phase) :
    sweep.handed = sweep.start := by
  have nothing : s.ahead = [] := by
    rw [Engine.ahead]
    split <;> simp_all [Closer.phase]
  rw [sweeping.order (by omega), nothing, List.append_nil]

/-- `page_index_destroy` finds an empty index. -/
theorem resident_nil (sweeping : Sweeping s sweep) (sound : Sound cfg s) {err : Bool}
    (position : s.closer = .destroy err) : s.resident = [] := by
  have phase : s.closer.phase = 11 := by rw [position]; rfl
  obtain ⟨idle, empty⟩ := (swept_of sound.walk sound.phases).drained err position
  refine List.eq_nil_iff_forall_not_mem.mpr fun p member => ?_
  obtain ⟨b, linked⟩ := (mem_resident sound.owned).mp member
  have handed : p ∈ sweep.handed := by
    rw [sweeping.handed_all (by omega)]
    exact sweeping.resident (by omega) b p linked
  exact sweeping.carried p handed
    { alive := (sound.owned.indexed b p linked).1
      outside := by simp [empty]
      alone := fun o => by simp [idle o, Role.carried] }

end Sweeping

/-- As long as Stage-2 does not unlink the page the walk stands on and no read fails once the
walk has started, the walk follows no link of a page that was unlinked or freed, it pushes the
pages that were resident when it started in their order, each of them once, and when it is over
it has pushed all of them; nothing is left for `page_index_destroy` to discard. -/
theorem sweep_complete
    (run : Run (sweepStep cfg) (fun o label => SweepSafe o.1 label)
      (Engine.init n cfg file scratch, ⟨[], []⟩) (s, sweep)) :
    s.closer ≠ .fault ∧
    (∀ err b p, s.closer = .sweepNext err b p → s.freed p = false ∧ p ∈ s.buckets b) ∧
    sweep.start.Nodup ∧ (3 ≤ s.closer.phase → sweep.handed <+: sweep.start) ∧
    (4 ≤ s.closer.phase → sweep.handed = sweep.start) ∧
    (∀ err, s.closer = .destroy err → s.resident = []) := by
  have both : Sound cfg s ∧ Sweeping s sweep := by
    apply run.invariant fun o => Sound cfg o.1 ∧ Sweeping o.1 o.2
    · exact ⟨.init cfg file scratch, .init cfg file scratch⟩
    · rintro ⟨s, sweep⟩ ⟨s', sweep'⟩ label ⟨sound, sweeping⟩ safe stepped
      obtain ⟨_, moved, same⟩ := Option.map_eq_some_iff.mp stepped
      obtain ⟨rfl, rfl⟩ := Prod.mk.inj same
      have move := move_of_step moved
      exact ⟨sound.move move, sweeping.step sound safe move⟩
  obtain ⟨sound, sweeping⟩ := both
  refine ⟨sweeping.unfaulted, fun err b p position => ?_, sweeping.nodup, fun late => ?_,
    sweeping.handed_all, fun err position => sweeping.resident_nil sound position⟩
  · have linked := sweeping.linked b p (by rw [position]; rfl) (by rw [position]; rfl)
    exact ⟨(sound.owned.indexed b p linked).1.2, linked⟩
  · exact ⟨s.ahead, (sweeping.order late).symm⟩

/-- The page of the small run is dropped and stays resident; `nox_close` drains, pushes it and
gives up its lock. -/
def tinySweep : List (Label 1) := tinyWrite ++ tinyDrop ++ .close :: List.replicate 6 .closer

/-- The walk reads the link before the stages get to the page, and comes to its end. -/
theorem sweep_complete_of_resident :
    ∃ (s : Engine 1) (sweep : Sweep), Run (sweepStep .standard) (fun o label => SweepSafe o.1 label)
        (Engine.init 1 .standard emptyFile (fun _ => 0), ⟨[], []⟩) (s, sweep) ∧
      sweep.start = [0] ∧ 4 ≤ s.closer.phase ∧ sweep.handed = sweep.start := by
  have reached : ∃ o, Run (sweepStep .standard) (fun o label => SweepSafe o.1 label)
      (Engine.init 1 .standard emptyFile (fun _ => 0), ⟨[], []⟩) o ∧
      o.2.start = [0] ∧ 4 ≤ o.1.closer.phase := by
    refine Run.exists_of_follow _ (fun (o : Engine 1 × Sweep) label => SweepSafe o.1 label)
      (tinySweep ++ List.replicate 1025 .closer) (fun _ _ passed => of_decide_eq_true passed) _ ?_
    decide +kernel
  obtain ⟨⟨s, sweep⟩, run, start, past⟩ := reached
  exact ⟨s, sweep, run, start, past, (sweep_complete run).2.2.2.2.1 past⟩

/-- Stage-1 fills the page it was handed, Stage-2 writes and frees it, and the walk then reads
the link of the freed page. -/
theorem sweep_complete_fault :
    ∃ (s : Engine 1) (sweep : Sweep), Run (sweepStep .standard) (fun _ _ => True)
        (Engine.init 1 .standard emptyFile (fun _ => 0), ⟨[], []⟩) (s, sweep) ∧
      s.closer = .fault := by
  have reached : ∃ o, Run (sweepStep .standard) (fun _ _ => True)
      (Engine.init 1 .standard emptyFile (fun _ => 0), ⟨[], []⟩) o ∧ o.1.closer = .fault := by
    refine Run.exists_of_follow _ (fun _ _ => true)
      (tinySweep ++ tinyFill ++ tinyWriteback ++ tinyFree ++ [.closer]) (fun _ _ _ => trivial) _ ?_
    decide +kernel
  obtain ⟨⟨s, sweep⟩, run, fault⟩ := reached
  exact ⟨s, sweep, run, fault⟩

end NoxDB
