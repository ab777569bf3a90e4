import FHT.Logging.Logger

/-!
# What becomes of the lines

The task takes the lines out of the list before it opens the file, and drops them if it cannot.
Where a line goes is decided by the interval when its stream is destroyed, but whether there is
a task by the interval when the first call of `log` is accepted.

## Main results

- `Logger.kept_iff` — when no line is lost
- `Logger.ms_of_run` — the delay with which a task is posted
- `Logger.scheduled_iff` — when lines in the list have a task
-/

namespace FHT.Logging

namespace Logger

/-- What holds of the logger whatever happens: the tasks hold its writer, and as long as there is
no writer nothing has been accepted, listed or written. -/
structure Sound (s : Logger) : Prop where
  task : s.life = .alive → ∀ task ∈ s.tasks, s.write = some task.fWrite
  list : s.write = none → s.list = []
  files : s.write = none → ∀ fileName, s.files fileName = []
  streams : s.write = none → ∀ i stream, s.streams i = some stream → stream.bind = false
  ended : s.life ≠ .alive → s.list = []

theorem init_sound : init.Sound :=
  ⟨by simp [init], fun _ => rfl, fun _ _ => rfl, by simp [init], fun _ => rfl⟩

/-- What a step does, by the action. -/
theorem step_eq_some {s t : Logger} {a : Action} (h : step s a = some t) :
    match a with
    | .dump k opened => s.dump k opened = some t
    | .setLevelVerboseLogging level => s.life = .alive ∧ t = { s with verboseLogging := level }
    | .setFileLogging fileName => s.life = .alive ∧ t = { s with fileLoggingName := fileName }
    | .setTimeDump second => s.life = .alive ∧ t = { s with intervalSec := second }
    | .log i level time => s.life = .alive ∧ s.log i level time = some t
    | .append i str => s.life = .alive ∧ s.append i str = some t
    | .destroyStream i => s.life = .alive ∧ s.destroyStream i = some t
    | .destructor opened => s.life = .alive ∧ t = s.destructor opened := by
  cases a with
  | dump k opened => exact h
  | setLevelVerboseLogging | setFileLogging | setTimeDump | log | append | destroyStream
  | destructor =>
    simp only [step] at h
    split at h
    · next halive => exact ⟨halive, by simpa [eq_comm] using h⟩
    · cases h

theorem makeWriter_of_some {s : Logger} {w : LogWriter} (h : s.write = some w) :
    s.makeWriter = s := by
  rw [makeWriter, h]

/-- The writer that the first accepted call makes. -/
def newWriter (s : Logger) : LogWriter := ⟨s.made, s.fileLoggingName⟩

theorem makeWriter_of_none {s : Logger} (h : s.write = none) :
    s.makeWriter =
      { s with
        write := some s.newWriter
        made := s.made + 1
        tasks := s.tasks ++
          if s.intervalSec ≠ 0 then [⟨s.newWriter, milliseconds s.intervalSec⟩] else [] } := by
  rw [makeWriter, h]
  by_cases hinterval : s.intervalSec = 0
  · simp [hinterval, newWriter]
  · simp [hinterval, newWriter]

/-- A call of `log` keeps everything but the streams, and the writer with its task where there is
none. -/
theorem log_eq_some {s t : Logger} {i : Nat} {level : Level} {time : Str}
    (h : s.log i level time = some t) :
    ∃ stream : LoggerStream, stream.bind = accepts s.verboseLogging level ∧
      t = { (if accepts s.verboseLogging level then s.makeWriter else s) with
        streams := Function.update s.streams i (some stream) } := by
  rw [log] at h
  split at h
  · cases h
  · obtain rfl := Option.some.inj h
    cases hacc : accepts s.verboseLogging level with
    | true => exact ⟨_, rfl, rfl⟩
    | false => exact ⟨_, rfl, rfl⟩

theorem append_bind (stream : LoggerStream) (str : Str) :
    (stream.append str).bind = stream.bind := by
  rw [LoggerStream.append]
  split
  · rfl
  · rfl

/-- Destroying a stream emits its line, if it is bound. -/
theorem destroyStream_eq_some {s t : Logger} {i : Nat} (h : s.destroyStream i = some t) :
    ∃ stream, s.streams i = some stream ∧
      t = if stream.bind then
          emit { s with streams := Function.update s.streams i none } stream.buf
        else { s with streams := Function.update s.streams i none } := by
  obtain ⟨stream, hstream, ht⟩ := Option.map_eq_some_iff.mp h
  exact ⟨stream, hstream, ht.symm⟩

/-- Writing changes nothing but the files. -/
theorem writeFromList_eq (s : Logger) (w : LogWriter) (lines : List Str) (opened : Bool) :
    ∃ files, s.writeFromList w lines opened = { s with files := files } := by
  rw [writeFromList]
  split
  · exact ⟨_, rfl⟩
  · exact ⟨s.files, rfl⟩

/-- A dump writes the list to the writer's file, or finishes where the logger is gone. -/
theorem dump_eq_some {s t : Logger} (hs : s.Sound) {k : Nat} {opened : Bool}
    (h : s.dump k opened = some t) :
    (∃ w, s.write = some w ∧ t = writeFromList { s with list := [] } w s.list opened) ∨
      s.life ≠ .alive ∧ t = { s with tasks := s.tasks.eraseIdx k } := by
  obtain ⟨task, htask, ht⟩ := Option.map_eq_some_iff.mp h
  by_cases halive : s.life = .alive
  · have hw := hs.task halive task (List.mem_of_getElem? htask)
    rw [lock, if_pos ⟨halive, hw⟩] at ht
    exact .inl ⟨_, hw, ht.symm⟩
  · rw [lock, if_neg fun hc => halive hc.1] at ht
    exact .inr ⟨halive, ht.symm⟩

theorem step_sound {s t : Logger} {a : Action} (hs : s.Sound) (h : step s a = some t) :
    t.Sound := by
  have hcase := step_eq_some h
  cases a with
  | setLevelVerboseLogging | setFileLogging | setTimeDump =>
    obtain ⟨_, rfl⟩ := hcase
    exact ⟨hs.task, hs.list, hs.files, hs.streams, hs.ended⟩
  | log i level time =>
    obtain ⟨stream, hbind, rfl⟩ := log_eq_some hcase.2
    cases hacc : accepts s.verboseLogging level with
    | false =>
      refine ⟨hs.task, hs.list, hs.files, fun hw j st hj => ?_, hs.ended⟩
      by_cases hji : j = i
      · subst hji
        obtain rfl : stream = st := by simpa using hj
        rw [hbind, hacc]
      · exact hs.streams hw j st (by simpa [hji] using hj)
    | true =>
      cases hw : s.write with
      | some w =>
        simp only [if_true, makeWriter_of_some hw]
        exact ⟨hs.task, hs.list, hs.files, by simp [hw], hs.ended⟩
      | none =>
        simp only [if_true, makeWriter_of_none hw]
        refine ⟨fun halive task htask => ?_, nofun, nofun, nofun, hs.ended⟩
        rcases List.mem_append.mp htask with hold | hnew
        · -- there was no task without a writer
          have := hs.task halive task hold
          simp [hw] at this
        · split at hnew
          · rw [List.mem_singleton.mp hnew]
          · cases hnew
  | append i str =>
    obtain ⟨stream, hstream, rfl⟩ := Option.map_eq_some_iff.mp hcase.2
    refine ⟨hs.task, hs.list, hs.files, fun hw j st hj => ?_, hs.ended⟩
    by_cases hji : j = i
    · subst hji
      obtain rfl : stream.append str = st := by simpa using hj
      rw [append_bind]
      exact hs.streams hw j stream hstream
    · exact hs.streams hw j st (by simpa [hji] using hj)
  | destroyStream i =>
    obtain ⟨stream, hstream, rfl⟩ := destroyStream_eq_some hcase.2
    have hstreams (hw : s.write = none) (j : Nat) (st : LoggerStream)
        (hj : Function.update s.streams i none j = some st) : st.bind = false := by
      by_cases hji : j = i
      · simp [hji] at hj
      · exact hs.streams hw j st (by simpa [hji] using hj)
    cases hb : stream.bind with
    | false => exact ⟨hs.task, hs.list, hs.files, hstreams, hs.ended⟩
    | true =>
      -- a bound stream has a writer
      have hw : s.write ≠ none := fun hw => by simp [hs.streams hw i stream hstream] at hb
      simp only [if_true, emit]
      split
      · exact ⟨hs.task, hs.list, hs.files, hstreams, hs.ended⟩
      · exact ⟨hs.task, fun h => absurd h hw, hs.files, hstreams, fun h => absurd hcase.1 h⟩
  | dump k opened =>
    rcases dump_eq_some hs hcase with ⟨w, hw, rfl⟩ | ⟨hover, rfl⟩
    · obtain ⟨files, hfiles⟩ := writeFromList_eq { s with list := [] } w s.list opened
      rw [hfiles]
      exact ⟨hs.task, fun _ => rfl, by simp [hw], hs.streams, fun _ => rfl⟩
    · exact ⟨fun halive => absurd halive hover, hs.list, hs.files, hs.streams, hs.ended⟩
  | destructor opened =>
    obtain ⟨_, rfl⟩ := hcase
    rw [destructor]
    split
    · exact ⟨nofun, fun _ => rfl, hs.files, hs.streams, fun _ => rfl⟩
    · next w hw =>
      obtain ⟨files, hfiles⟩ := writeFromList_eq _ w s.list opened
      rw [hfiles]
      exact ⟨nofun, fun _ => rfl, by simp [hw], hs.streams, fun _ => rfl⟩

/-- The lines that the writer's file has received. -/
def received (s : Logger) : List Str :=
  match s.write with
  | some w => s.files w.fileName
  | none => []

/-- Every line emitted is in the file or in the list, once and in order. -/
def Kept (s : Logger) : Prop := s.received ++ s.list = s.emitted

/-- The file can be opened where there are lines to write. -/
def FileOpens (s : Logger) : Action → Prop
  | .dump _ opened | .destructor opened => opened = true ∨ s.list = []
  | _ => True

theorem received_of_some {s : Logger} {w : LogWriter} (h : s.write = some w) :
    s.received = s.files w.fileName := by
  rw [received, h]

theorem received_of_none {s : Logger} (h : s.write = none) : s.received = [] := by
  rw [received, h]

/-- What is written comes out of the list; without the file it is lost. -/
theorem writeFromList_kept_iff {s t : Logger} {w : LogWriter} (hk : s.Kept) (hw : s.write = some w)
    (opened : Bool) (htw : t.write = s.write) (htl : t.list = []) (htf : t.files = s.files)
    (hte : t.emitted = s.emitted) :
    (t.writeFromList w s.list opened).Kept ↔ opened = true ∨ s.list = [] := by
  have hk : s.files w.fileName ++ s.list = s.emitted := received_of_some hw ▸ hk
  rw [writeFromList]
  cases opened with
  | true => simp [Kept, received, htw, hw, htl, htf, hte, hk]
  | false => simp [Kept, received, htw, hw, htl, htf, hte, ← hk]

/-- One step loses no line exactly if the file can be opened where it is needed. -/
theorem step_kept_iff {s t : Logger} {a : Action} (hs : s.Sound) (hinterval : s.intervalSec ≠ 0)
    (hk : s.Kept) (h : step s a = some t) : t.Kept ↔ s.FileOpens a := by
  have hcase := step_eq_some h
  cases a with
  | setLevelVerboseLogging | setFileLogging | setTimeDump =>
    obtain ⟨_, rfl⟩ := hcase
    exact iff_true_intro hk
  | log i level time =>
    obtain ⟨stream, _, rfl⟩ := log_eq_some hcase.2
    refine iff_true_intro ?_
    split
    · cases hw : s.write with
      | some w =>
        rw [makeWriter_of_some hw]
        exact hk
      | none =>
        -- the file of the new writer has received nothing
        rw [Kept, received_of_none hw] at hk
        rw [makeWriter_of_none hw, Kept, received_of_some rfl]
        simp only [hs.files hw]
        exact hk
    · exact hk
  | append i str =>
    obtain ⟨stream, _, rfl⟩ := Option.map_eq_some_iff.mp hcase.2
    exact iff_true_intro hk
  | destroyStream i =>
    obtain ⟨stream, _, rfl⟩ := destroyStream_eq_some hcase.2
    refine iff_true_intro ?_
    split
    · simp only [emit, hinterval, if_false]
      change s.received ++ (s.list ++ [stream.buf]) = s.emitted ++ [stream.buf]
      rw [← List.append_assoc, hk]
    · exact hk
  | dump k opened =>
    rcases dump_eq_some hs hcase with ⟨w, hw, rfl⟩ | ⟨hover, rfl⟩
    · exact writeFromList_kept_iff hk hw opened rfl rfl rfl rfl
    · exact iff_of_true hk (.inr (hs.ended hover))
  | destructor opened =>
    obtain ⟨_, rfl⟩ := hcase
    rw [destructor]
    split
    · next hw =>
      have hlist := hs.list hw
      rw [Kept, hlist] at hk
      exact iff_of_true hk (.inr hlist)
    · next w hw => exact writeFromList_kept_iff hk hw opened rfl rfl rfl rfl

/-- What was set last, and the interval at the first accepted call of `log`. -/
structure Settings where
  level : Verbose
  interval : Int
  first : Option Int

def Settings.next (o : Settings) : Action → Settings
  | .setLevelVerboseLogging level => { o with level := level }
  | .setTimeDump second => { o with interval := second }
  | .log _ level _ =>
    if accepts o.level level ∧ o.first = none then { o with first := some o.interval } else o
  | _ => o

/-- The settings after the actions. -/
def settings (acts : List Action) : Settings := acts.foldl Settings.next ⟨.OFF, 0, none⟩

/-- The logger is set so. There is a writer after the first accepted call, and a task if the
interval was not zero then. -/
structure Follows (o : Settings) (s : Logger) : Prop where
  level : s.verboseLogging = o.level
  interval : s.intervalSec = o.interval
  write : s.life = .alive → (s.write = none ↔ o.first = none)
  tasks : s.life = .alive → (s.tasks = [] ↔ o.first = none ∨ o.first = some 0)

theorem Follows.log {o : Settings} {s t : Logger} {i : Nat} {level : Level} {time : Str}
    (ho : Follows o s) (halive : s.life = .alive) (h : s.log i level time = some t) :
    Follows (o.next (.log i level time)) t := by
  obtain ⟨stream, _, rfl⟩ := log_eq_some h
  have hwrite := ho.write halive
  rw [Settings.next, ← ho.level]
  cases accepts s.verboseLogging level with
  | false =>
    simp only [Bool.false_eq_true, false_and, if_false]
    exact ⟨ho.level, ho.interval, ho.write, ho.tasks⟩
  | true =>
    cases hw : s.write with
    | some w =>
      have hfirst : o.first ≠ none := fun hno => by simp [hwrite.mpr hno] at hw
      simp only [if_true, makeWriter_of_some hw, hfirst, and_false, if_false]
      exact ⟨ho.level, ho.interval, ho.write, ho.tasks⟩
    | none =>
      have hfirst := hwrite.mp hw
      have htasks := (ho.tasks halive).mpr (.inl hfirst)
      simp only [if_true, makeWriter_of_none hw, hfirst, and_self]
      refine ⟨rfl, ho.interval, fun _ => by simp, fun _ => ?_⟩
      rw [← ho.interval]
      by_cases hzero : s.intervalSec = 0
      · simp [hzero, htasks]
      · simp [hzero]

theorem step_follows {o : Settings} {s t : Logger} {a : Action} (hs : s.Sound)
    (ho : Follows o s) (h : step s a = some t) : Follows (o.next a) t := by
  have hcase := step_eq_some h
  cases a with
  | setLevelVerboseLogging level =>
    obtain ⟨_, rfl⟩ := hcase
    exact ⟨rfl, ho.interval, ho.write, ho.tasks⟩
  | setFileLogging fileName =>
    obtain ⟨_, rfl⟩ := hcase
    exact ⟨ho.level, ho.interval, ho.write, ho.tasks⟩
  | setTimeDump second =>
    obtain ⟨_, rfl⟩ := hcase
    exact ⟨ho.level, rfl, ho.write, ho.tasks⟩
  | log i level time => exact ho.log hcase.1 hcase.2
  | append i str =>
    obtain ⟨stream, _, rfl⟩ := Option.map_eq_some_iff.mp hcase.2
    exact ⟨ho.level, ho.interval, ho.write, ho.tasks⟩
  | destroyStream i =>
    obtain ⟨stream, _, rfl⟩ := destroyStream_eq_some hcase.2
    split
    · rw [emit]
      split
      · exact ⟨ho.level, ho.interval, ho.write, ho.tasks⟩
      · exact ⟨ho.level, ho.interval, ho.write, ho.tasks⟩
    · exact ⟨ho.level, ho.interval, ho.write, ho.tasks⟩
  | dump k opened =>
    rcases dump_eq_some hs hcase with ⟨w, hw, rfl⟩ | ⟨hover, rfl⟩
    · obtain ⟨files, hfiles⟩ := writeFromList_eq { s with list := [] } w s.list opened
      rw [hfiles]
      exact ⟨ho.level, ho.interval, ho.write, ho.tasks⟩
    · exact ⟨ho.level, ho.interval, fun halive => absurd halive hover,
        fun halive => absurd halive hover⟩
  | destructor opened =>
    obtain ⟨_, rfl⟩ := hcase
    rw [destructor]
    split
    · exact ⟨ho.level, ho.interval, nofun, nofun⟩
    · next w _ =>
      obtain ⟨files, hfiles⟩ := writeFromList_eq _ w s.list opened
      rw [hfiles]
      exact ⟨ho.level, ho.interval, nofun, nofun⟩

/-- A dump task is posted for every interval that was set at the first accepted call. -/
def Timed (o : Settings) (s : Logger) : Prop :=
  ∀ task ∈ s.tasks, ∃ second, o.first = some second ∧ task.ms = milliseconds second

theorem Timed.log {o : Settings} {s t : Logger} {i : Nat} {level : Level} {time : Str}
    (ht : Timed o s) (ho : Follows o s) (halive : s.life = .alive)
    (h : s.log i level time = some t) : Timed (o.next (.log i level time)) t := by
  obtain ⟨stream, _, rfl⟩ := log_eq_some h
  rw [Settings.next, ← ho.level]
  cases accepts s.verboseLogging level with
  | false =>
    simp only [Bool.false_eq_true, false_and, if_false]
    exact ht
  | true =>
    cases hw : s.write with
    | some w =>
      have hfirst : o.first ≠ none := fun hno => by simp [(ho.write halive).mpr hno] at hw
      simp only [if_true, makeWriter_of_some hw, hfirst, and_false, if_false]
      exact ht
    | none =>
      have hfirst := (ho.write halive).mp hw
      simp only [if_true, makeWriter_of_none hw, hfirst, and_self]
      intro task htask
      rcases List.mem_append.mp htask with hold | hnew
      · obtain ⟨second, hsecond, _⟩ := ht task hold
        rw [hfirst] at hsecond
        cases hsecond
      · split at hnew
        · rw [List.mem_singleton.mp hnew, ho.interval]
          exact ⟨_, rfl, rfl⟩
        · cases hnew

theorem step_timed {o : Settings} {s t : Logger} {a : Action} (hs : s.Sound) (ho : Follows o s)
    (ht : Timed o s) (h : step s a = some t) : Timed (o.next a) t := by
  have hcase := step_eq_some h
  cases a with
  | setLevelVerboseLogging | setFileLogging | setTimeDump =>
    obtain ⟨_, rfl⟩ := hcase
    exact ht
  | log i level time => exact ht.log ho hcase.1 hcase.2
  | append i str =>
    obtain ⟨stream, _, rfl⟩ := Option.map_eq_some_iff.mp hcase.2
    exact ht
  | destroyStream i =>
    obtain ⟨stream, _, rfl⟩ := destroyStream_eq_some hcase.2
    split
    · rw [emit]
      split <;> exact ht
    · exact ht
  | dump k opened =>
    rcases dump_eq_some hs hcase with ⟨w, hw, rfl⟩ | ⟨hover, rfl⟩
    · obtain ⟨files, hfiles⟩ := writeFromList_eq { s with list := [] } w s.list opened
      rw [hfiles]
      exact ht
    · exact fun task htask => ht task (List.mem_of_mem_eraseIdx htask)
  | destructor opened =>
    obtain ⟨_, rfl⟩ := hcase
    rw [destructor]
    split
    · exact ht
    · next w _ =>
      obtain ⟨files, hfiles⟩ := writeFromList_eq _ w s.list opened
      rw [hfiles]
      exact ht

/-- A new logger with an interval. -/
def start (interval : Int) : Logger := { init with intervalSec := interval }

/-- The action does not change the interval. -/
def Action.KeepsInterval (interval : Int) : Action → Prop
  | .setTimeDump second => second = interval
  | _ => True

/-- With an interval that does not change, no line is lost in any state of a run exactly if the
file can be opened at every dump with lines to write. -/
theorem kept_iff {interval : Int} (hinterval : 0 < interval) {acts : List Action}
    (hacts : ∀ a ∈ acts, a.KeepsInterval interval) :
    step.Along (fun _ _ t => t.Kept) (start interval) acts ↔
      step.Along (fun s a _ => s.FileOpens a) (start interval) acts := by
  -- the settings that a state follows keep the interval
  let I (s : Logger) : Prop := (s.Sound ∧ s.Kept) ∧ ∃ o, Follows o s ∧ o.interval = interval
  have hiff {s t : Logger} {a : Action} (hI : I s) (h : step s a = some t) :
      t.Kept ↔ s.FileOpens a := by
    obtain ⟨⟨hs, hk⟩, o, ho, hint⟩ := hI
    exact step_kept_iff hs (by rw [ho.interval]; omega) hk h
  have hkeep {s t : Logger} {a : Action} (hI : I s) (ha : a.KeepsInterval interval)
      (h : step s a = some t) (hk : t.Kept) : I t := by
    obtain ⟨⟨hs, _⟩, o, ho, hint⟩ := hI
    refine ⟨⟨step_sound hs h, hk⟩, o.next a, step_follows hs ho h, ?_⟩
    cases a with
    | setTimeDump second => exact ha
    | log i level time =>
      rw [Settings.next]
      split
      · exact hint
      · exact hint
    | setLevelVerboseLogging | setFileLogging | append | destroyStream | dump | destructor =>
      exact hint
  have hstart : I (start interval) :=
    ⟨⟨⟨by simp [start, init], fun _ => rfl, fun _ _ => rfl, by simp [start, init],
      fun _ => rfl⟩, rfl⟩, ⟨.OFF, interval, none⟩, ⟨rfl, rfl, by simp [start, init],
      by simp [start, init]⟩, rfl⟩
  constructor
  · intro h
    refine (h.and_forall hacts).imp ?_ hstart
    rintro s a t hI hstep ⟨ha, hkt⟩
    exact ⟨(hiff hI hstep).mp hkt, hkeep hI ha hstep hkt⟩
  · intro h
    refine (h.and_forall hacts).imp ?_ hstart
    rintro s a t hI hstep ⟨ha, hopens⟩
    have hkt := (hiff hI hstep).mpr hopens
    exact ⟨hkt, hkeep hI ha hstep hkt⟩

/-- One line is accepted, emitted and dumped. -/
theorem kept_one_line : step.Along (fun _ _ t => t.Kept) (start 5)
    [.setLevelVerboseLogging .DEBUG, .log 0 .INFO [], .destroyStream 0, .dump 0 true] := by
  refine (kept_iff (by decide) (by simp [Action.KeepsInterval])).mpr ?_
  simp [Machine.along_cons, FileOpens]

/-- The file cannot be opened: the line is neither in it nor in the list. -/
theorem dump_loses_line :
    ∃ s, step.run (start 5) [.setLevelVerboseLogging .DEBUG, .log 0 .INFO [], .destroyStream 0,
        .dump 0 false] = some s ∧
      s.emitted = ["|[INFO]".toList] ∧ s.received = [] ∧ s.list = [] ∧ ¬ s.Kept := by
  refine ⟨_, rfl, rfl, rfl, rfl, ?_⟩
  intro hk
  cases hk

/-- Where lines are in the list there is a writer, and a task that holds it. -/
def Scheduled (s : Logger) : Prop :=
  s.list ≠ [] → ∃ w, s.write = some w ∧ ∃ task ∈ s.tasks, task.fWrite = w

/-- When a line is emitted, the interval is zero now or was not zero at the first accepted call. -/
def TaskPosted (o : Settings) (s : Logger) : Action → Prop
  | .destroyStream i =>
    ∀ stream, s.life = .alive → s.streams i = some stream → stream.bind = true →
      o.interval = 0 ∨ o.first ≠ some 0
  | _ => True

theorem scheduled_of_list_eq_nil {s : Logger} (h : s.list = []) : s.Scheduled :=
  fun hne => absurd h hne

/-- One step keeps lines scheduled exactly if the task is there when a line goes to the list. -/
theorem step_scheduled_iff {o : Settings} {s t : Logger} {a : Action} (hs : s.Sound)
    (ho : Follows o s) (hsched : s.Scheduled) (h : step s a = some t) :
    t.Scheduled ↔ TaskPosted o s a := by
  have hcase := step_eq_some h
  cases a with
  | setLevelVerboseLogging | setFileLogging | setTimeDump =>
    obtain ⟨_, rfl⟩ := hcase
    exact iff_true_intro hsched
  | log i level time =>
    obtain ⟨stream, _, rfl⟩ := log_eq_some hcase.2
    refine iff_true_intro ?_
    split
    · cases hw : s.write with
      | some w =>
        rw [makeWriter_of_some hw]
        exact hsched
      | none =>
        rw [makeWriter_of_none hw]
        exact scheduled_of_list_eq_nil (hs.list hw)
    · exact hsched
  | append i str =>
    obtain ⟨stream, _, rfl⟩ := Option.map_eq_some_iff.mp hcase.2
    exact iff_true_intro hsched
  | destroyStream i =>
    obtain ⟨stream, hstream, rfl⟩ := destroyStream_eq_some hcase.2
    simp only [TaskPosted, hcase.1, hstream, Option.some.injEq, forall_const, forall_eq']
    cases hb : stream.bind with
    | false => exact ⟨fun _ => nofun, fun _ => hsched⟩
    | true =>
      by_cases hzero : s.intervalSec = 0
      · have hint : o.interval = 0 := ho.interval ▸ hzero
        simp only [if_true, emit, hzero, hint, true_or, implies_true, iff_true]
        exact hsched
      · have hint : o.interval ≠ 0 := ho.interval ▸ hzero
        have hfirst : o.first ≠ none := by
          intro hno
          have := hs.streams ((ho.write hcase.1).mpr hno) i stream hstream
          simp [this] at hb
        have htasks := ho.tasks hcase.1
        simp only [if_true, emit, hzero, if_false, hint, false_or, forall_const]
        constructor
        · intro hts hno
          obtain ⟨w, _, task, htask, _⟩ := hts (by simp)
          rw [htasks.mpr (.inr hno)] at htask
          cases htask
        · intro hno _
          have hne : s.tasks ≠ [] := fun hnil => (htasks.mp hnil).elim hfirst hno
          obtain ⟨task, htask⟩ := List.exists_mem_of_ne_nil _ hne
          exact ⟨_, hs.task hcase.1 task htask, task, htask, rfl⟩
  | dump k opened =>
    rcases dump_eq_some hs hcase with ⟨w, hw, rfl⟩ | ⟨hover, rfl⟩
    · refine iff_true_intro (scheduled_of_list_eq_nil ?_)
      cases opened <;> rfl
    · exact iff_true_intro (scheduled_of_list_eq_nil (hs.ended hover))
  | destructor opened =>
    obtain ⟨_, rfl⟩ := hcase
    refine iff_true_intro (scheduled_of_list_eq_nil ?_)
    rw [destructor]
    split
    · rfl
    · cases opened <;> rfl

theorem run_sound_follows {acts : List Action} {s : Logger} (h : step.run init acts = some s) :
    s.Sound ∧ Follows (settings acts) s := by
  refine Machine.run_history (P := fun _ => True)
    (I := fun acts s => s.Sound ∧ Follows (settings acts) s) ?_
    ⟨init_sound, rfl, rfl, by simp [init, settings], by simp [init, settings]⟩
    (fun _ _ => trivial) h
  rintro acts s a t ⟨hs, ho⟩ _ hstep
  rw [settings, List.foldl_append]
  exact ⟨step_sound hs hstep, step_follows hs ho hstep⟩

/-- The product is the number of milliseconds as long as that is an `int`. -/
theorem milliseconds_eq_iff {second : Int} (hsecond : 0 ≤ second) :
    milliseconds second = second * 1000 ↔ second ≤ 2147483 := by
  rw [milliseconds, Int.bmod_eq_iff (by decide)]
  omega

/-- In every run a dump task is due every so many milliseconds as the interval had at the first
accepted call, if the interval is not negative and those are an `int`. -/
theorem ms_of_run {acts : List Action} {s : Logger} (h : step.run init acts = some s)
    {task : DumpTask} (htask : task ∈ s.tasks) :
    ∃ second, (settings acts).first = some second ∧ task.ms = milliseconds second ∧
      (0 ≤ second → (task.ms = second * 1000 ↔ second ≤ 2147483)) := by
  have htimed : Timed (settings acts) s := by
    refine (Machine.run_history (P := fun _ => True)
      (I := fun acts s => (s.Sound ∧ Follows (settings acts) s) ∧ Timed (settings acts) s) ?_
      ⟨⟨init_sound, rfl, rfl, by simp [init, settings], by simp [init, settings]⟩,
        by simp [Timed, init]⟩ (fun _ _ => trivial) h).2
    rintro acts s a t ⟨⟨hs, ho⟩, ht⟩ _ hstep
    rw [settings, List.foldl_append]
    exact ⟨⟨step_sound hs hstep, step_follows hs ho hstep⟩, step_timed hs ho ht hstep⟩
  obtain ⟨second, hfirst, hms⟩ := htimed task htask
  exact ⟨second, hfirst, hms, fun hsecond => hms ▸ milliseconds_eq_iff hsecond⟩

/-- In every state of a run the lines in the list are scheduled exactly if, whenever a line is
emitted while the interval is not zero, it was not zero at the first accepted call either. -/
theorem scheduled_iff (acts : List Action) :
    (∀ pre post s, acts = pre ++ post → step.run init pre = some s → s.Scheduled) ↔
      ∀ pre i post s, acts = pre ++ .destroyStream i :: post → step.run init pre = some s →
        TaskPosted (settings pre) s (.destroyStream i) := by
  constructor
  · intro h pre i post s hacts hrun
    obtain ⟨hs, ho⟩ := run_sound_follows hrun
    cases hstep : step s (.destroyStream i) with
    | some t =>
      refine (step_scheduled_iff hs ho (h pre _ s hacts hrun) hstep).mp ?_
      refine h (pre ++ [.destroyStream i]) post t (by simp [hacts]) ?_
      exact Machine.run_concat_eq_some.mpr ⟨s, hrun, hstep⟩
    | none =>
      intro stream halive hstream
      simp [step, halive, destroyStream, hstream] at hstep
  · intro h pre post s hacts hrun
    induction pre using List.reverseRecOn generalizing post s with
    | nil =>
      obtain rfl : init = s := by simpa using hrun
      exact scheduled_of_list_eq_nil rfl
    | append_singleton pre a ih =>
      obtain ⟨u, hu, hstep⟩ := Machine.run_concat_eq_some.mp hrun
      obtain ⟨hs, ho⟩ := run_sound_follows hu
      have hsched := ih (a :: post) u (by simp [hacts]) hu
      refine (step_scheduled_iff hs ho hsched hstep).mpr ?_
      cases a with
      | destroyStream i => exact h pre i post u (by simp [hacts]) hu
      | setLevelVerboseLogging | setFileLogging | setTimeDump | log | append | dump
      | destructor => trivial

/-- The first line goes to stdout. The interval set after it sends the second one to the list,
which no task dumps. -/
theorem late_interval_unscheduled :
    ∃ s, step.run init [.setLevelVerboseLogging .DEBUG, .log 0 .INFO [], .destroyStream 0,
        .setTimeDump 5, .log 1 .INFO [], .destroyStream 1] = some s ∧
      s.stdout = ["|[INFO]".toList] ∧ s.list = ["|[INFO]".toList] ∧ s.tasks.length = 0 ∧
      ¬ s.Scheduled := by
  refine ⟨_, rfl, rfl, rfl, rfl, ?_⟩
  intro h
  obtain ⟨_, _, task, htask, _⟩ := h (List.cons_ne_nil _ _)
  cases htask

end Logger

end FHT.Logging
