/-
  CommandGrammar.Proofs.AlarmClock — the alarm clock finds what it looks up, and keeps a valid alarm.

  The six commands compile (`setup_eq`), so what a call gives is told by derivations of
  the patterns that they compile to. A call that sets the alarm always gives an hour from
  1 to 12, one variant and two optionals, and a message exactly if the second of these is
  there (`setAlarm_tells`); a call about bread gives one optional (`bread_tells`). Nothing
  else is ever looked up, so that the program is never cut short, and every alarm that it
  comes to has such an hour (`setup_serves`).
-/

import CommandGrammar.AlarmClock
import CommandGrammar.Proofs.Call.Words
import CommandGrammar.Proofs.Command.Dispatch
import CommandGrammar.Proofs.Matching.Answers
import Mathlib

namespace CommandGrammar.AlarmClock

/-! ## The commands, compiled -/

def hourConverter : Converter :=
  .range 1 12 (ascii "hours go from 1 to 12")

/-- A literal without modifiers. -/
def word (text : String) : Pattern :=
  .literal (ascii text) true false

/-- What sets the alarm. -/
def setPattern : List Pattern :=
  [word "set", .optional [word "loud"] none, word "alarm", word "at",
    .parameter (ascii "time") (some (ascii "hour")), .variants [[word "am"], [word "pm"]] none false true,
    .optional [word "with", word "message", .tail (ascii "message") true] none]

def breadPattern : List Pattern :=
  [word "i", .optional [word "don't"] none, word "like", word "bread"]

/-- What the command for an action compiles to. -/
def Action.pattern : Action → Pattern
  | .setAlarm => .sequence setPattern
  | .clearAlarm =>
    .sequence [.variants [[.literal (ascii "clear") true true], [.literal (ascii "remove") true true],
      [.literal (ascii "delete") true true]] none false true, word "alarm"]
  | .showAlarm => .sequence [.literal (ascii "show") false false, word "alarm"]
  | .bread => .sequence breadPattern
  | .help => word "help"
  | .exit => .variants [[word "exit"], [word "quit"]] none false false

def compiled : List (Command Action) :=
  commands.map fun (grammar, action, description) =>
    ⟨⟨action.pattern, ascii grammar, .standard⟩, action, ascii description⟩

variable {σ : Type} [Score σ]

def clock : Dispatcher σ Action :=
  { (blank : Dispatcher σ Action) with commands := compiled }

/-- All grammars compile, and none of them has a simpler form. -/
theorem setup_eq : (setup : Except Bytes (Dispatcher σ Action × List Grammar.Note)) = .ok (clock, []) := by
  cbv

theorem clock_hour : (clock : Dispatcher σ Action).policy.types.get? (ascii "hour") = some hourConverter :=
  Table.get?_insert_self _ _ _

/-- The action of a command tells its pattern. -/
theorem compiled_root {c : Command Action} (hc : c ∈ compiled) : c.compiled.root = c.result.pattern := by
  obtain ⟨_, -, rfl⟩ := List.mem_map.mp hc
  rfl

/-! ## What a call finds -/

theorem hour_of_range {lo hi : Int} {message text : Bytes} {v : Value} (h : Converter.range lo hi message text = .ok v) :
    ∃ n, v = .int n ∧ lo ≤ n ∧ n ≤ hi := by
  unfold Converter.range at h
  split at h
  · rename_i n _
    split at h
    · cases h
    · rename_i hn
      cases h
      exact ⟨n, rfl, by omega⟩
  · cases h

section

variable {policy : Policy σ} {raw : Bytes} {l l' : Position} {f : Findings}

/-- Of an optional word is found whether it is there. -/
theorem optional_found {text : String} (h : Derives policy raw (.optional [word text] none) l l' f) :
    ∃ present, f = { optionals := [present] } := by
  cases h with
  | absent => exact ⟨false, rfl⟩
  | present _ hcs =>
    obtain ⟨_, _, _, hword, hrest, rfl⟩ := derivesEach_cons.mp hcs
    obtain ⟨-, rfl⟩ := derivesEach_nil.mp hrest
    rw [hword.literal_found]
    exact ⟨true, by simp [Findings.recordOptional]⟩

/-- Of alternative words is found which one it is. -/
theorem alternatives_found (texts : List String) {inherited parenthesized : Bool}
    (h : Derives policy raw (.variants (texts.map fun t => [word t]) none inherited parenthesized) l l' f) :
    ∃ i < texts.length, f = { variants := [i] } := by
  cases h with
  | @variant _ a i _ _ _ _ _ _ hi ha =>
    obtain ⟨hlt, hword⟩ := List.getElem?_eq_some_iff.mp hi
    rw [List.getElem_map] at hword
    subst hword
    obtain ⟨_, _, _, hword, hrest, rfl⟩ := derivesEach_cons.mp ha
    obtain ⟨-, rfl⟩ := derivesEach_nil.mp hrest
    rw [hword.literal_found]
    exact ⟨i, by simpa using hlt, by simp [Findings.recordVariant]⟩

theorem hour_found {name : Bytes} (htypes : policy.types.get? (ascii "hour") = some hourConverter)
    (h : Derives policy raw (.parameter name (some (ascii "hour"))) l l' f) :
    ∃ n, 1 ≤ n ∧ n ≤ 12 ∧ f = ({} : Findings).bind name (.int n) := by
  cases h with
  | typed _ _ hv =>
    rw [Types.construct, htypes] at hv
    obtain ⟨n, rfl, hlo, hhi⟩ := hour_of_range hv
    exact ⟨n, hlo, hhi, rfl⟩

/-- Of an optional message is found its text, if it is there. -/
theorem message_found {tokens : List Call.Token} {name : Bytes} (hspans : Call.Spans raw.length 0 tokens)
    (hl : l.tokens <:+ tokens)
    (h : Derives policy raw (.optional [word "with", word "message", .tail name true] none) l l' f) :
    f = { optionals := [false] } ∨
      ∃ text, text ≠ [] ∧ text <:+: raw ∧ f = ({ optionals := [true] } : Findings).bind name (.str text) := by
  cases h with
  | absent => exact .inl rfl
  | present _ hcs =>
    obtain ⟨_, _, _, hwith, hmessageTail, rfl⟩ := derivesEach_cons.mp hcs
    obtain ⟨_, _, _, hmessage, htailNil, rfl⟩ := derivesEach_cons.mp hmessageTail
    obtain ⟨_, _, _, htail, hnil, rfl⟩ := derivesEach_cons.mp htailNil
    obtain ⟨-, rfl⟩ := derivesEach_nil.mp hnil
    have hleft := (hmessage.suffix.trans hwith.suffix).trans hl
    rw [hwith.literal_found, hmessage.literal_found]
    cases htail with
    | @text _ t last _ hlast =>
      obtain ⟨hlt, hstop⟩ := (hspans.suffix hleft).first_last hlast
      have hinfix : raw.slice t.start last.stop <:+: raw :=
        (List.take_prefix _ _).isInfix.trans (List.drop_suffix _ _).isInfix
      refine .inr ⟨_, Call.slice_ne_nil hlt hstop, hinfix, ?_⟩
      simp only [Findings.nothing_merge, Findings.merge_nothing]
      rw [Findings.bind_eq_merge { optionals := [true] }]
      rfl

/-- What is found in a call that sets the alarm. -/
structure Tells (call : Bytes) (f : Findings) : Prop where
  time : ∃ hour, f.value (ascii "time") = .ok (.int hour) ∧ 1 ≤ hour ∧ hour ≤ 12
  half : ∃ i < 2, f.variants = [i]
  /-- The message is there exactly if the second optional is, and it stands in the call. -/
  message : ∃ loud said, f.optionals = [loud, said] ∧ f.params.contains (ascii "message") = said ∧
    (said = true → ∃ text, f.value (ascii "message") = .ok (.str text) ∧ text ≠ [] ∧ text <:+: call)

theorem setAlarm_tells {tokens : List Call.Token} (htypes : policy.types.get? (ascii "hour") = some hourConverter)
    (hspans : Call.Spans raw.length 0 tokens) (h : Derives policy raw (.sequence setPattern) ⟨tokens, false⟩ l' f) :
    Tells raw f := by
  cases h with | sequence h =>
  obtain ⟨_, _, _, hset, h₁, rfl⟩ := derivesEach_cons.mp h
  obtain ⟨_, _, _, hloud, h₂, rfl⟩ := derivesEach_cons.mp h₁
  obtain ⟨_, _, _, halarm, h₃, rfl⟩ := derivesEach_cons.mp h₂
  obtain ⟨_, _, _, hat, h₄, rfl⟩ := derivesEach_cons.mp h₃
  obtain ⟨_, _, _, htime, h₅, rfl⟩ := derivesEach_cons.mp h₄
  obtain ⟨l₆, _, _, hhalf, h₆, rfl⟩ := derivesEach_cons.mp h₅
  obtain ⟨_, _, _, hmessage, h₇, rfl⟩ := derivesEach_cons.mp h₆
  obtain ⟨-, rfl⟩ := derivesEach_nil.mp h₇
  have hleft : l₆.tokens <:+ tokens :=
    hhalf.suffix.trans (htime.suffix.trans (hat.suffix.trans (halarm.suffix.trans (hloud.suffix.trans hset.suffix))))
  obtain ⟨loud, rfl⟩ := optional_found hloud
  obtain ⟨hour, hlo, hhi, rfl⟩ := hour_found htypes htime
  obtain ⟨i, hi, rfl⟩ := alternatives_found ["am", "pm"] hhalf
  rw [hset.literal_found, halarm.literal_found, hat.literal_found]
  simp only [Findings.nothing_merge, Findings.merge_nothing]
  rcases message_found hspans hleft hmessage with rfl | ⟨text, hne, hinfix, rfl⟩
  · exact ⟨⟨hour, rfl, hlo, hhi⟩, ⟨i, hi, rfl⟩, loud, false, rfl, rfl, fun hsaid => by cases hsaid⟩
  · exact ⟨⟨hour, rfl, hlo, hhi⟩, ⟨i, hi, rfl⟩, loud, true, rfl, rfl, fun _ => ⟨text, rfl, hne, hinfix⟩⟩

/-- Of a call about bread is found whether one does not like it. -/
theorem bread_tells {ts : List Call.Token} (h : Derives policy raw (.sequence breadPattern) ⟨ts, false⟩ l' f) :
    ∃ dislike, f.optionals = [dislike] := by
  cases h with | sequence h =>
  obtain ⟨_, _, _, hi, h₁, rfl⟩ := derivesEach_cons.mp h
  obtain ⟨_, _, _, hdislike, h₂, rfl⟩ := derivesEach_cons.mp h₁
  obtain ⟨_, _, _, hlike, h₃, rfl⟩ := derivesEach_cons.mp h₂
  obtain ⟨_, _, _, hbread, h₄, rfl⟩ := derivesEach_cons.mp h₃
  obtain ⟨-, rfl⟩ := derivesEach_nil.mp h₄
  obtain ⟨dislike, rfl⟩ := optional_found hdislike
  rw [hi.literal_found, hlike.literal_found, hbread.literal_found]
  exact ⟨dislike, rfl⟩

end

/-! ## What a call is answered with -/

/-- What the answer to a call has found is derived from the tokens of the call by the pattern of its action. -/
theorem derives_of_dispatch {call : Bytes} {a : Answer σ Action} (h : (clock : Dispatcher σ Action).dispatch call = .ok a) :
    ∃ ts l, Call.Spans call.length 0 ts ∧
      Derives (clock : Dispatcher σ Action).policy call a.result.pattern ⟨ts, false⟩ l a.progress.found := by
  obtain ⟨c, hc, hresult, hmatched⟩ := Dispatcher.exists_matched_of_dispatch h
  obtain ⟨hroot, -⟩ := matchCall_eq_matched.mp hmatched
  obtain ⟨f, hf, he⟩ := sound c.compiled.root _ _ hroot
  have hfound : a.progress.found = f := by
    rw [he.found]
    exact Findings.nothing_merge f
  rw [hfound, hresult, ← compiled_root hc]
  exact ⟨_, _, Call.tokens_spans _ call, hf⟩

theorem dispatch_tells {call : Bytes} {a : Answer σ Action} (h : (clock : Dispatcher σ Action).dispatch call = .ok a)
    (hset : a.result = .setAlarm) : Tells call a.progress.found := by
  obtain ⟨ts, l, hspans, hf⟩ := derives_of_dispatch h
  rw [hset] at hf
  exact setAlarm_tells clock_hour hspans hf

theorem dispatch_bread {call : Bytes} {a : Answer σ Action} (h : (clock : Dispatcher σ Action).dispatch call = .ok a)
    (hbread : a.result = .bread) : ∃ dislike, a.progress.found.optionals = [dislike] := by
  obtain ⟨ts, l, -, hf⟩ := derives_of_dispatch h
  rw [hbread] at hf
  exact bread_tells hf

def Alarm.Valid (a : Alarm) : Prop :=
  1 ≤ a.hour ∧ a.hour ≤ 12

theorem alarmOf_valid {call : Bytes} {f : Findings} (h : Tells call f) : ∃ a, alarmOf f = .ok a ∧ a.Valid := by
  obtain ⟨⟨hour, htime, hlo, hhi⟩, ⟨i, -, hhalf⟩, loud, said, hoptionals, hsaid, htext⟩ := h
  have hint : f.int (ascii "time") = .ok hour := by
    rw [Findings.int, htime]
    rfl
  have hvariant : f.variantAt 0 = .ok i := by
    rw [Findings.variantAt, hhalf]
    rfl
  have hoptional : f.optionalAt 0 = .ok loud := by
    rw [Findings.optionalAt, hoptionals]
    rfl
  unfold alarmOf
  rw [hint, hvariant, hoptional, hsaid]
  cases said with
  | false => exact ⟨⟨hour, i == 1, loud, []⟩, rfl, hlo, hhi⟩
  | true =>
    obtain ⟨text, htext, -, -⟩ := htext rfl
    have hstr : f.str (ascii "message") = .ok text := by
      rw [Findings.str, htext]
      rfl
    rw [hstr]
    exact ⟨⟨hour, i == 1, loud, text⟩, rfl, hlo, hhi⟩

/-- The alarm behind a call that is answered with an action. -/
inductive Sets (alarm : Option Alarm) : Action → Option Alarm → Prop
  | set {a : Alarm} : a.Valid → Sets alarm .setAlarm (some a)
  | cleared : Sets alarm .clearAlarm none
  | kept {action : Action} : action ≠ .setAlarm → action ≠ .clearAlarm → Sets alarm action alarm

section

variable {alarm later : Option Alarm} {action : Action}

theorem Sets.valid (h : Sets alarm action later) (halarm : ∀ a ∈ alarm, a.Valid) : ∀ a ∈ later, a.Valid := by
  cases h with
  | set hvalid =>
    rintro _ ⟨⟩
    exact hvalid
  | cleared =>
    intro a ha
    cases ha
  | kept => exact halarm

theorem Sets.eq_of_ne (h : Sets alarm action later) (hset : action ≠ .setAlarm) (hclear : action ≠ .clearAlarm) :
    later = alarm := by
  cases h with
  | set => exact absurd rfl hset
  | cleared => exact absurd rfl hclear
  | kept => rfl

end

/-- Every action can be carried out on what its command has found. -/
theorem perform_sets {call : Bytes} {a : Answer σ Action} (h : (clock : Dispatcher σ Action).dispatch call = .ok a)
    (alarm : Option Alarm) :
    ∃ r, perform (clock : Dispatcher σ Action) alarm a.progress.found a.result = .ok r ∧ Sets alarm a.result r.alarm := by
  cases haction : a.result with
  | setAlarm =>
    obtain ⟨set, hset, hvalid⟩ := alarmOf_valid (dispatch_tells h haction)
    rw [perform, hset]
    exact ⟨_, rfl, .set hvalid⟩
  | clearAlarm => exact ⟨_, rfl, .cleared⟩
  | showAlarm => exact ⟨_, rfl, .kept (by decide) (by decide)⟩
  | bread =>
    obtain ⟨dislike, hdislike⟩ := dispatch_bread h haction
    rw [perform, Findings.optionalAt, hdislike]
    exact ⟨_, rfl, .kept (by decide) (by decide)⟩
  | help => exact ⟨_, rfl, .kept (by decide) (by decide)⟩
  | exit => exact ⟨_, rfl, .kept (by decide) (by decide)⟩

variable (σ) in
/-- Every call is answered. One that is refused keeps the alarm. -/
theorem answer_sets (alarm : Option Alarm) (call : Bytes) :
    ∃ r, answer (clock : Dispatcher σ Action) alarm call = .ok r ∧
      (r.alarm = alarm ∨ ∃ a, (clock : Dispatcher σ Action).dispatch call = .ok a ∧ Sets alarm a.result r.alarm) := by
  unfold answer
  cases h : (clock : Dispatcher σ Action).dispatch call with
  | error e => exact ⟨_, rfl, .inl rfl⟩
  | ok a =>
    obtain ⟨r, hr, hsets⟩ := perform_sets h alarm
    exact ⟨r, hr, .inr ⟨a, rfl, hsets⟩⟩

/-! ## Runs -/

/-- The alarms that the program comes to, line after line. -/
inductive Reached (d : Dispatcher σ Action) : Option Alarm → Prop
  | start : Reached d none
  | line {alarm : Option Alarm} {call : Bytes} {r : Reply} :
      Reached d alarm → answer d alarm call = .ok r → Reached d r.alarm

theorem Reached.valid {alarm : Option Alarm} (h : Reached (clock : Dispatcher σ Action) alarm) :
    ∀ a ∈ alarm, a.Valid := by
  induction h with
  | start =>
    intro a ha
    cases ha
  | @line alarm call r _ hr ih =>
    obtain ⟨r', hr', hsets⟩ := answer_sets σ alarm call
    rw [hr] at hr'
    cases hr'
    rcases hsets with hkept | ⟨a, -, hsets⟩
    · rwa [hkept]
    · exact hsets.valid ih

theorem converse_code (alarm : Option Alarm) (lines : List Bytes) :
    (converse (clock : Dispatcher σ Action) alarm lines).code = 0 := by
  induction lines generalizing alarm with
  | nil => rfl
  | cons call rest ih =>
    obtain ⟨r, hr, -⟩ := answer_sets σ alarm call
    simp only [converse, hr]
    split
    · rfl
    · exact ih r.alarm

theorem run_code (args : List Bytes) (input : Bytes) :
    (run (clock : Dispatcher σ Action) args input).code = 0 ∨ (run (clock : Dispatcher σ Action) args input).code = 1 := by
  unfold run
  split
  · exact .inl (converse_code none _)
  · obtain ⟨r, hr, -⟩ := answer_sets σ none (callOf args)
    simp only [runOnce, hr]
    split
    · exact .inl rfl
    · exact .inr rfl

/-! ## The program -/

structure Serves (d : Dispatcher σ Action) : Prop where
  setAlarm : ∀ call a, d.dispatch call = .ok a → a.result = .setAlarm → Tells call a.progress.found
  bread : ∀ call a, d.dispatch call = .ok a → a.result = .bread → ∃ dislike, a.progress.found.optionals = [dislike]
  /-- No lookup fails, whatever the alarm is. -/
  answers : ∀ alarm call, ∃ r, answer d alarm call = .ok r
  runs : ∀ args input, (run d args input).code = 0 ∨ (run d args input).code = 1
  valid : ∀ alarm, Reached d alarm → ∀ a ∈ alarm, a.Valid
  /-- Only a call that sets or clears the alarm changes it. -/
  kept : ∀ alarm call r, answer d alarm call = .ok r →
    (∀ a, d.dispatch call = .ok a → a.result ≠ .setAlarm ∧ a.result ≠ .clearAlarm) → r.alarm = alarm

theorem clock_serves : Serves (clock : Dispatcher σ Action) where
  setAlarm call a h hset := dispatch_tells h hset
  bread call a h hbread := dispatch_bread h hbread
  answers alarm call := (answer_sets σ alarm call).imp fun _ h => h.1
  runs := run_code
  valid alarm h := h.valid
  kept := by
    intro alarm call r hr hother
    obtain ⟨r', hr', hsets⟩ := answer_sets σ alarm call
    rw [hr] at hr'
    cases hr'
    rcases hsets with hkept | ⟨a, ha, hsets⟩
    · exact hkept
    · exact hsets.eq_of_ne (hother a ha).1 (hother a ha).2

/-- All commands can be set up, and the program serves with them: no run is cut short, and every alarm is valid. -/
theorem setup_serves :
    ∃ d notes, (setup : Except Bytes (Dispatcher σ Action × List Grammar.Note)) = .ok (d, notes) ∧ Serves d :=
  ⟨clock, [], setup_eq, clock_serves⟩

end CommandGrammar.AlarmClock
