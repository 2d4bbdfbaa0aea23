/-
  CommandGrammar.Proofs.Grammar.Reached — the states of the parser, with the tokens that lead to them.

  `Reached r ts s` says that the parser is in the state `s` behind the tokens `ts`. A
  grammar that is rejected is read up to some state: there the next token cannot be
  read, or there is none and the grammar may not end (`parse_error`). The open brackets
  of a reached state are those that the tokens leave open (`Reached.unclosed`), which a
  scan for brackets and dividers tells without parsing anything.
-/

import CommandGrammar.Proofs.Grammar.Moves
import Mathlib.Data.List.Induction

namespace CommandGrammar.Grammar

variable {r : Reading}

/-! ## Reached states -/

/-- The tokens, each of them read in its turn, lead from the first state to `s`. -/
inductive Reached (r : Reading) : List Token → State → Prop
  | start : Reached r [] {}
  | step {ts : List Token} {s s' : State} {t : Token} : Reached r ts s → Moves r s t s' → Reached r (ts ++ [t]) s'

theorem bind_eq_error {ε α β : Type} {x : Except ε α} {f : α → Except ε β} {e : ε} :
    (x >>= f) = .error e ↔ x = .error e ∨ ∃ a, x = .ok a ∧ f a = .error e := by
  cases x with
  | error e' => simp [bind, Except.bind]
  | ok a => simp [bind, Except.bind]

namespace Reached

variable {before : List Token} {s : State}

theorem run {ts : List Token} {s' : State} (h : Reached r before s) (hr : ts.foldlM (State.step r) s = .ok s') :
    Reached r (before ++ ts) s' := by
  induction ts generalizing before s with
  | nil =>
    cases hr
    rwa [List.append_nil]
  | cons t ts ih =>
    rw [List.foldlM_cons] at hr
    obtain ⟨s₁, hs₁, hr⟩ := bind_eq_ok.mp hr
    rw [List.append_cons]
    exact ih (h.step (step_eq_ok.mp hs₁)) hr

/-- Reading that fails does so at one of the tokens, in the state that those before it lead to. -/
theorem run_error {ts : List Token} {e : SyntaxError} (h : Reached r before s)
    (hr : ts.foldlM (State.step r) s = .error e) :
    ∃ read t rest s', before ++ ts = read ++ t :: rest ∧ Reached r read s' ∧ s'.step r t = .error e := by
  induction ts generalizing before s with
  | nil => cases hr
  | cons t ts ih =>
    rw [List.foldlM_cons] at hr
    rcases bind_eq_error.mp hr with hs | ⟨s₁, hs₁, hr⟩
    · exact ⟨before, t, ts, s, rfl, h, hs⟩
    · rw [List.append_cons]
      exact ih (h.step (step_eq_ok.mp hs₁)) hr

end Reached

/-- A grammar is rejected at a token that cannot be read where it stands, or at its end. -/
theorem parse_error {ts : List Token} {e : SyntaxError} (h : parse r ts = .error e) :
    (∃ read t rest s, ts = read ++ t :: rest ∧ Reached r read s ∧ s.step r t = .error e) ∨
      ∃ s, Reached r ts s ∧ s.finish = .error e := by
  rcases bind_eq_error.mp h with hr | ⟨s, hr, hfinish⟩
  · exact .inl (Reached.start.run_error hr)
  · exact .inr ⟨s, Reached.start.run hr, hfinish⟩

/-! ## Brackets that the tokens leave open -/

/-- A bracket that is open, with the token that opened it. -/
structure Unclosed where
  token : Token
  group : OpenGroup

def Unclosed.divide (o : Unclosed) : Unclosed :=
  { o with group.divided := true }

/-- The brackets that are open behind a token, the innermost first. -/
def nextUnclosed (os : List Unclosed) (t : Token) : List Unclosed :=
  match t.kind with
  | .mark (.opening b) => ⟨t, b, false⟩ :: os
  | .mark (.closing _) => os.tail
  | .mark .divider => os.modifyHead Unclosed.divide
  | _ => os

/-- The brackets that the tokens leave open, the innermost first, each with whether a divider stands directly inside. -/
def unclosed (ts : List Token) : List Unclosed :=
  ts.foldl nextUnclosed []

theorem unclosed_snoc (ts : List Token) (t : Token) : unclosed (ts ++ [t]) = nextUnclosed (unclosed ts) t := by
  rw [unclosed, unclosed, List.foldl_append, List.foldl_cons, List.foldl_nil]

theorem mem_nextUnclosed {os : List Unclosed} {t : Token} {o : Unclosed} (h : o ∈ nextUnclosed os t) :
    (∃ o' ∈ os, o'.token = o.token ∧ o'.group.bracket = o.group.bracket) ∨
      o.token = t ∧ t.kind = .mark (.opening o.group.bracket) := by
  unfold nextUnclosed at h
  split at h
  · rename_i b hk
    rcases List.mem_cons.mp h with rfl | h
    · exact .inr ⟨rfl, hk⟩
    · exact .inl ⟨o, h, rfl, rfl⟩
  · exact .inl ⟨o, List.mem_of_mem_tail h, rfl, rfl⟩
  · cases os with
    | nil => cases h
    | cons o' os =>
      rw [List.modifyHead_cons] at h
      rcases List.mem_cons.mp h with rfl | h
      · exact .inl ⟨o', List.mem_cons_self, rfl, rfl⟩
      · exact .inl ⟨o, List.mem_cons_of_mem _ h, rfl, rfl⟩
  · exact .inl ⟨o, h, rfl, rfl⟩

/-- What is left open is one of the tokens, and opens a bracket. -/
theorem mem_unclosed {ts : List Token} {o : Unclosed} (h : o ∈ unclosed ts) :
    o.token ∈ ts ∧ o.token.kind = .mark (.opening o.group.bracket) := by
  induction ts using List.reverseRecOn generalizing o with
  | nil => cases h
  | append_singleton ts t ih =>
    rw [unclosed_snoc] at h
    rcases mem_nextUnclosed h with ⟨o', ho', htoken, hbracket⟩ | ⟨htoken, hk⟩
    · obtain ⟨hmem, hk⟩ := ih ho'
      rw [← htoken, ← hbracket]
      exact ⟨List.mem_append_left _ hmem, hk⟩
    · rw [htoken]
      exact ⟨List.mem_append_right _ List.mem_cons_self, hk⟩

/-! ## Brackets of a state -/

/-- The brackets around a level, the innermost first. -/
def unclosedAround : Level → List Opened → List Unclosed
  | _, [] => []
  | inside, o :: rest => ⟨o.token, o.bracket, !inside.variants.isEmpty⟩ :: unclosedAround o.outside rest

theorem openPath_eq (l : Level) (os : List Opened) : openPath l os = ((unclosedAround l os).map (·.group)).reverse := by
  induction os generalizing l with
  | nil => rfl
  | cons o os ih => rw [openPath, unclosedAround, ih, List.map_cons, List.reverse_cons]

/-- Of a level nothing counts but whether it has been divided. -/
theorem unclosedAround_congr {l l' : Level} (h : l'.variants = l.variants) (os : List Opened) :
    unclosedAround l' os = unclosedAround l os := by
  cases os with
  | nil => rfl
  | cons o os => rw [unclosedAround, unclosedAround, h]

theorem unclosedAround_divide (l : Level) (t : Token) (os : List Opened) :
    unclosedAround (l.divide t) os = (unclosedAround l os).modifyHead Unclosed.divide := by
  cases os with
  | nil => rfl
  | cons o os => rfl

theorem amend_variants (l : Level) (f : Pattern → Pattern) : (l.amend f).variants = l.variants := by
  unfold Level.amend
  split <;> rfl

/-- A step opens and closes what its token says. -/
theorem Moves.unclosed {s s' : State} {t : Token} (h : Moves r s t s') :
    unclosedAround s'.level s'.opened = nextUnclosed (unclosedAround s.level s.opened) t := by
  cases h with
  | literal hk => simp only [nextUnclosed, hk]; exact unclosedAround_congr (by rfl) _
  | name hk => simp only [nextUnclosed, hk]
  | type hk => simp only [nextUnclosed, hk]
  | identifier hk _ hd =>
    obtain ⟨_, hlevel, hopened, _⟩ := declare_eq_ok hd
    simp only [nextUnclosed, hk, hlevel, hopened]
    exact unclosedAround_congr (amend_variants _ _) _
  | openParameter hk => simp only [nextUnclosed, hk]
  | closeParameter hk _ hd =>
    obtain ⟨_, hlevel, hopened, _⟩ := declare_eq_ok hd
    simp only [nextUnclosed, hk, State.append, hlevel, hopened]
    exact unclosedAround_congr (by rfl) _
  | awaitType hk => simp only [nextUnclosed, hk]
  | awaitIdentifier hk => simp only [nextUnclosed, hk]
  | markTail hk => simp only [nextUnclosed, hk]
  | markRaw hk => simp only [nextUnclosed, hk]
  | @modify m _ _ _ _ hk =>
    cases m <;> simp only [nextUnclosed, hk, Modifier.mark] <;> exact unclosedAround_congr (by rfl) _
  | divide hk => simp only [nextUnclosed, hk, unclosedAround_divide]
  | openGroup hk => simp only [nextUnclosed, hk]; rfl
  | closeGroup hk _ ho =>
    simp only [nextUnclosed, hk, ho, unclosedAround, List.tail_cons]
    exact unclosedAround_congr (by rfl) _

theorem Reached.unclosed {ts : List Token} {s : State} (h : Reached r ts s) :
    unclosedAround s.level s.opened = unclosed ts := by
  induction h with
  | start => rfl
  | step _ hm ih => rw [unclosed_snoc, hm.unclosed, ih]

/-! ## Dividers of a state -/

/-- The dividers met in a level and in the levels around it. -/
def dividersAround (l : Level) (os : List Opened) : List Token :=
  (l :: os.map (·.outside)).flatMap fun l => l.variants.map (·.divider)

/-- The only divider that a step can add is the token it reads. -/
theorem Moves.dividers {s s' : State} {t : Token} (h : Moves r s t s') :
    dividersAround s'.level s'.opened ⊆ t :: dividersAround s.level s.opened := by
  have hsame : dividersAround s.level s.opened ⊆ t :: dividersAround s.level s.opened := List.subset_cons_self _ _
  cases h with
  | literal => exact hsame
  | name => exact hsame
  | type => exact hsame
  | identifier _ _ hd =>
    obtain ⟨_, hlevel, hopened, _⟩ := declare_eq_ok hd
    simp only [dividersAround, List.flatMap_cons, amend_variants, hlevel, hopened]
    exact hsame
  | openParameter => exact hsame
  | closeParameter _ _ hd =>
    obtain ⟨_, hlevel, hopened, _⟩ := declare_eq_ok hd
    simp only [State.append, Level.add, dividersAround, List.flatMap_cons, hlevel, hopened]
    exact hsame
  | awaitType => exact hsame
  | awaitIdentifier => exact hsame
  | markTail => exact hsame
  | markRaw => exact hsame
  | modify => exact hsame
  | divide => exact List.Subset.refl _
  | openGroup => exact hsame
  | closeGroup _ _ ho =>
    intro d hd
    simp only [ho, dividersAround, List.map_cons, List.flatMap_cons]
    exact List.mem_cons_of_mem _ (List.mem_append_right _ hd)

theorem Reached.dividers {ts : List Token} {s : State} (h : Reached r ts s) : dividersAround s.level s.opened ⊆ ts := by
  induction h with
  | start => exact List.nil_subset _
  | step _ hm ih =>
    intro d hd
    rcases List.mem_cons.mp (hm.dividers hd) with rfl | hd
    · exact List.mem_append_right _ List.mem_cons_self
    · exact List.mem_append_left _ (ih hd)

end CommandGrammar.Grammar
