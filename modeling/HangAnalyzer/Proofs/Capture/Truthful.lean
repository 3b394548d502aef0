import Mathlib.Data.List.Induction
import HangAnalyzer.Capture.Monitors

/-!
# `HangAnalyzer.Proofs.Capture.Truthful`: what `monitor_active` says

`monitor_active` is a variable of its own next to the two monitors. It is right as
long as a switch that stops half-way is undone. `_set_monitor_active` undoes it
in one case only: `CommunicationMonitor.start` returns an error and
`KernelMonitor.stop` then succeeds. `Clean` lists the answers that lead to no
half-way stop that stays.

`truthful_setMonitorActive` is the step: from a truthful state, the next state is
truthful exactly when the answers are clean. `monitorActive_truthful_iff` is the
history, by induction on its rounds.
-/

set_option autoImplicit false

namespace HangAnalyzer.Capture

open HangAnalyzer.Lib

/-- `monitor_active` holds exactly when both monitors run, and when it does not
hold neither of them runs. -/
def Truthful (s : Loop) : Prop :=
  (s.monitorActive = true ↔ s.kernelRunning = true ∧ s.communicationRunning = true) ∧
    (s.monitorActive = false → s.kernelRunning = false ∧ s.communicationRunning = false)

/-- `start()` was never called on a monitor that runs. -/
def NoRestart (s : Loop) : Prop := ∀ m answer, LoopCall.start m true answer ∉ s.calls

/-- The answers leave no monitor in another state than the other one. When the
monitors are switched on, a start of the communication monitor that fails is
undone. When they are switched off, both stops succeed, or none does and one of
them raises. -/
def Clean (answers : Answers) (s : Loop) (enabled : Bool) : Prop :=
  enabled ≠ s.monitorActive →
    if enabled then
      answers.kernelStart = .success → answers.communicationStart = .success ∨
        (∃ result, answers.communicationStart = .failure result) ∧ answers.kernelStop = .success
    else
      answers.kernelStop = .success ∧ answers.communicationStop = .success ∨
        (∃ error, answers.kernelStop = .raised error) ∨
        (∃ result, answers.kernelStop = .failure result) ∧
          ∃ error, answers.communicationStop = .raised error

/-- The answers of a round are clean for what the enable file says. -/
def CleanRound (codec : Codec) (path : String) (s : Loop) (round : Round) : Prop :=
  ∀ enabled, (enabledByFile codec path s round.file).2 = .ok enabled →
    Clean round.answers s enabled

/-! ### One switch -/

/-- Two loops agree on the monitors and on `monitor_active`. -/
def SameMonitors (s s' : Loop) : Prop :=
  s'.kernelRunning = s.kernelRunning ∧ s'.communicationRunning = s.communicationRunning ∧
    s'.monitorActive = s.monitorActive

/-- Only the monitors and `monitor_active` decide whether a loop is truthful. -/
theorem SameMonitors.truthful {s s' : Loop} (h : SameMonitors s s') :
    Truthful s' ↔ Truthful s := by
  obtain ⟨hkernel, hcommunication, hactive⟩ := h
  unfold Truthful
  rw [hkernel, hcommunication, hactive]

/-- In a truthful loop both monitors are as `monitor_active` says. -/
theorem truthful_iff {s : Loop} : Truthful s ↔
    s.kernelRunning = s.monitorActive ∧ s.communicationRunning = s.monitorActive := by
  unfold Truthful
  cases s.monitorActive <;> cases s.kernelRunning <;> cases s.communicationRunning <;> decide

section
variable {codec : Codec} {path : String} {s : Loop} {answers : Answers}

/-- From a truthful state, a switch leads to a truthful state exactly when its
answers are clean. -/
theorem truthful_setMonitorActive (h : Truthful s) (enabled : Bool) :
    Truthful (setMonitorActive answers s enabled).1 ↔ Clean answers s enabled := by
  rw [truthful_iff] at h ⊢
  obtain ⟨hkernel, hcommunication⟩ := h
  unfold Clean setMonitorActive
  by_cases hsame : enabled = s.monitorActive
  · simp [hsame, hkernel, hcommunication]
  · rw [if_neg hsame]
    cases enabled with
    | true =>
        have hoff : s.monitorActive = false := by simpa using Ne.symm hsame
        rw [hoff] at hkernel hcommunication
        -- The answers decide how far the switch gets.
        cases hstart : answers.kernelStart <;> cases hnext : answers.communicationStart <;>
          cases hundo : answers.kernelStop <;>
          simp [Loop.start, Loop.stop, Loop.setRunning, switched, Loop.put, hkernel,
            hcommunication, hoff]
    | false =>
        have hon : s.monitorActive = true := by simpa using Ne.symm hsame
        rw [hon] at hkernel hcommunication
        cases hstop : answers.kernelStop <;> cases hnext : answers.communicationStop <;>
          simp [Loop.stop, Loop.setRunning, switched, stopResult, Loop.setError, Loop.put, hkernel,
            hcommunication, hon]

/-- From a truthful state, a switch starts no monitor that runs. -/
theorem noRestart_setMonitorActive (h : Truthful s) (hcalls : NoRestart s) (enabled : Bool) :
    NoRestart (setMonitorActive answers s enabled).1 := by
  rw [truthful_iff] at h
  obtain ⟨hkernel, hcommunication⟩ := h
  unfold NoRestart setMonitorActive at *
  by_cases hsame : enabled = s.monitorActive
  · rw [if_pos hsame]
    exact hcalls
  · rw [if_neg hsame]
    -- The answers decide which monitor is left running, and none is started twice.
    cases enabled with
    | true =>
        have hoff : s.monitorActive = false := by simpa using Ne.symm hsame
        rw [hoff] at hkernel hcommunication
        cases hstart : answers.kernelStart <;> cases hnext : answers.communicationStart <;>
          cases hundo : answers.kernelStop <;>
          simp [Loop.start, Loop.stop, Loop.setRunning, Loop.running, switched, Loop.put, hkernel,
            hcommunication, hcalls]
    | false =>
        cases hstop : answers.kernelStop <;> cases hnext : answers.communicationStop <;>
          simp [Loop.stop, Loop.setRunning, switched, stopResult, Loop.setError, Loop.put, hcalls]

/-! ### One round -/

/-- Reading the enable file changes no monitor, and makes no call. -/
theorem enabledByFile_same (codec : Codec) (path : String) (s : Loop) (file : Option FileState) :
    SameMonitors s (enabledByFile codec path s file).1 ∧
      (enabledByFile codec path s file).1.calls = s.calls := by
  unfold enabledByFile
  split
  · exact ⟨⟨rfl, rfl, rfl⟩, rfl⟩
  · split
    · exact ⟨⟨rfl, rfl, rfl⟩, rfl⟩
    · exact ⟨⟨rfl, rfl, rfl⟩, rfl⟩
    · exact ⟨⟨rfl, rfl, rfl⟩, rfl⟩
    · split
      · exact ⟨⟨rfl, rfl, rfl⟩, rfl⟩
      · exact ⟨⟨rfl, rfl, rfl⟩, rfl⟩

/-- Flushing changes no monitor, and starts none. -/
theorem flush_same (answers : Answers) (s : Loop) :
    SameMonitors s (flush answers s) ∧ (NoRestart s → NoRestart (flush answers s)) := by
  unfold flush
  split
  · cases answers.flushAll <;>
      simp +contextual [SameMonitors, NoRestart, loopError, Loop.setError, Loop.put]
  · simp +contextual [SameMonitors, NoRestart, Loop.put]

/-- **One round.** From a truthful state a round leads to a truthful state exactly
when its answers are clean, and it starts no monitor that runs. -/
theorem truthful_tick (h : Truthful s) (hcalls : NoRestart s) (round : Round) :
    (Truthful (tick codec path s round) ↔ CleanRound codec path s round) ∧
      NoRestart (tick codec path s round) := by
  obtain ⟨hsame, hkept⟩ := enabledByFile_same codec path s round.file
  unfold tick CleanRound
  -- Only the answer of the read is needed, and that it changes no monitor.
  generalize enabledByFile codec path s round.file = read at hsame hkept
  obtain ⟨s₁, result⟩ := read
  have hs₁ : Truthful s₁ := hsame.truthful.mpr h
  have hcalls₁ : NoRestart s₁ := by
    unfold NoRestart
    rwa [hkept]
  cases result with
  -- A read that fails leaves the monitors alone.
  | error error =>
      refine ⟨⟨fun _ enabled heq => ?_, fun _ => hs₁⟩, hcalls₁⟩
      cases heq
  -- The switch decides, and the flush after it changes nothing.
  | ok enabled =>
      have hstep : Truthful (setMonitorActive round.answers s₁ enabled).1 ↔
          Clean round.answers s₁ enabled := truthful_setMonitorActive hs₁ enabled
      have hnone : NoRestart (setMonitorActive round.answers s₁ enabled).1 :=
        noRestart_setMonitorActive hs₁ hcalls₁ enabled
      have hclean : Clean round.answers s₁ enabled ↔ Clean round.answers s enabled := by
        unfold Clean
        rw [hsame.2.2]
      simp only [Except.ok.injEq, forall_eq']
      rw [← hclean, ← hstep]
      generalize setMonitorActive round.answers s₁ enabled = next at hnone
      obtain ⟨s₂, raised⟩ := next
      cases raised with
      | some error => exact ⟨Iff.rfl, hnone⟩
      | none =>
          obtain ⟨hflush, hkeeps⟩ := flush_same round.answers s₂
          exact ⟨hflush.truthful, hkeeps hnone⟩

/-- The end of the loop is a switch to off. -/
theorem truthful_finalStop (h : Truthful s) (hcalls : NoRestart s) :
    (Truthful (finalStop s answers) ↔ Clean answers s false) ∧
      NoRestart (finalStop s answers) := by
  have hstep : Truthful (setMonitorActive answers s false).1 ↔ Clean answers s false :=
    truthful_setMonitorActive h false
  have hnone : NoRestart (setMonitorActive answers s false).1 :=
    noRestart_setMonitorActive h hcalls false
  unfold finalStop
  -- At the end only an active capture is switched off.
  split
  · rw [← hstep]
    generalize setMonitorActive answers s false = next at hnone
    obtain ⟨s₂, raised⟩ := next
    cases raised with
    | some error => exact ⟨Iff.rfl, hnone⟩
    | none => exact ⟨Iff.rfl, hnone⟩
  · rename_i hoff
    refine ⟨⟨fun _ hne => absurd (by simpa using Ne.symm hne) hoff, fun _ => h⟩, hcalls⟩

end

/-! ### A history -/

/-- The loop after some rounds. -/
def afterRounds (codec : Codec) (path : String) (rounds : List Round) : Loop :=
  rounds.foldl (tick codec path) .init

/-- Every round of the history is clean, and so is the final stop. -/
def CleanHistory (codec : Codec) (path : String) (rounds : List Round) (final : Answers) : Prop :=
  (∀ pre round post, rounds = pre ++ round :: post →
      CleanRound codec path (afterRounds codec path pre) round) ∧
    Clean final (afterRounds codec path rounds) false

section
variable {codec : Codec} {path : String}

/-- The last round is the last tick. -/
theorem afterRounds_concat (rounds : List Round) (round : Round) :
    afterRounds codec path (rounds ++ [round])
      = tick codec path (afterRounds codec path rounds) round := by
  rw [afterRounds, List.foldl_append, List.foldl_cons, List.foldl_nil, afterRounds]

/-- The loop is truthful before its first round. -/
theorem truthful_init : Truthful .init := truthful_iff.mpr ⟨rfl, rfl⟩

/-- No monitor has been started before the first round. -/
theorem noRestart_init : NoRestart .init := by
  intro m answer hmem
  cases hmem

/-- After rounds that are all clean, `monitor_active` is right. -/
theorem truthful_afterRounds (rounds : List Round)
    (h : ∀ pre round post, rounds = pre ++ round :: post →
      CleanRound codec path (afterRounds codec path pre) round) :
    Truthful (afterRounds codec path rounds) ∧ NoRestart (afterRounds codec path rounds) := by
  -- The induction is on the rounds, from the first one on.
  induction rounds using List.reverseRecOn with
  | nil => exact ⟨truthful_init, noRestart_init⟩
  | append_singleton rounds round ih =>
      obtain ⟨htruthful, hnone⟩ := ih fun pre r post heq =>
        h pre r (post ++ [round]) (by rw [heq]; simp)
      have hclean : CleanRound codec path (afterRounds codec path rounds) round :=
        h rounds round [] rfl
      have hround : (Truthful (tick codec path (afterRounds codec path rounds) round) ↔
            CleanRound codec path (afterRounds codec path rounds) round) ∧
          NoRestart (tick codec path (afterRounds codec path rounds) round) :=
        truthful_tick htruthful hnone round
      rw [afterRounds_concat]
      exact ⟨hround.1.mpr hclean, hround.2⟩

/-- As long as `monitor_active` is right, no monitor is started twice. -/
theorem noRestart_afterRounds (rounds : List Round)
    (h : ∀ pre, pre <+: rounds → Truthful (afterRounds codec path pre)) :
    NoRestart (afterRounds codec path rounds) := by
  induction rounds using List.reverseRecOn with
  | nil => exact noRestart_init
  | append_singleton rounds round ih =>
      have hnone := ih fun pre hpre => h pre (hpre.trans (List.prefix_append _ _))
      rw [afterRounds_concat]
      exact (truthful_tick (h rounds (List.prefix_append _ _)) hnone round).2

/-- **`monitor_active` tells the truth**, after every round and after the final stop,
and no monitor is started twice, if and only if all answers are clean. -/
theorem monitorActive_truthful_iff (codec : Codec) (path : String) (rounds : List Round)
    (final : Answers) :
    ((∀ pre, pre <+: rounds → Truthful (afterRounds codec path pre)) ∧
        Truthful (finalStop (afterRounds codec path rounds) final) ∧
        NoRestart (finalStop (afterRounds codec path rounds) final)) ↔
      CleanHistory codec path rounds final := by
  constructor
  · -- A truthful state before and after a round shows that the round is clean.
    rintro ⟨hprefixes, hfinal, -⟩
    have hnone : ∀ pre, pre <+: rounds → NoRestart (afterRounds codec path pre) := fun pre hpre =>
      noRestart_afterRounds pre fun pre' hpre' => hprefixes pre' (hpre'.trans hpre)
    constructor
    · intro pre round post heq
      have hpre : pre <+: rounds := ⟨round :: post, heq.symm⟩
      refine (truthful_tick (hprefixes pre hpre) (hnone pre hpre) round).1.mp ?_
      rw [← afterRounds_concat]
      exact hprefixes (pre ++ [round]) ⟨post, by rw [heq]; simp⟩
    · have hall : rounds <+: rounds := List.prefix_rfl
      exact (truthful_finalStop (hprefixes rounds hall) (hnone rounds hall)).1.mp hfinal
  · -- Clean rounds keep the state truthful up to the final stop.
    rintro ⟨hclean, hfinal⟩
    obtain ⟨htruthful, hnone⟩ := truthful_afterRounds rounds hclean
    have hstop : (Truthful (finalStop (afterRounds codec path rounds) final) ↔
          Clean final (afterRounds codec path rounds) false) ∧
        NoRestart (finalStop (afterRounds codec path rounds) final) :=
      truthful_finalStop htruthful hnone
    refine ⟨fun pre hpre => ?_, hstop.1.mpr hfinal, hstop.2⟩
    obtain ⟨post, rfl⟩ := hpre
    refine (truthful_afterRounds pre fun pre' round post' heq => ?_).1
    exact hclean pre' round (post' ++ post) (by rw [heq]; simp)

end

/-- `CommunicationMonitor.start` raises: the kernel monitor runs on, although
`monitor_active` is false, and the next round starts it again. -/
theorem half_started :
    let round : Round :=
      ⟨none, .success, .raised "RuntimeError: busy", .success, .success, .success⟩
    let after := afterRounds (fun _ => .ok []) "/home/enable_prof"
    (after [round]).monitorActive = false ∧ (after [round]).kernelRunning = true ∧
      .start .kernel true .success ∈ (after [round, round]).calls := by
  exact ⟨rfl, rfl, by decide⟩

end HangAnalyzer.Capture
