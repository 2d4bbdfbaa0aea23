/-
  CommandGrammar.Proofs.Grammar.Sound — no register of the parser is read before it is set.

  A machine with registers mirrors the parser from the first token to the last
  (`run_agrees`), so that what the parser keeps to in every state that it can reach holds
  of the machine: which registers are set in which mode, where the latest node stands, and
  what the scopes on the stack are (`Machine.Sound`). So the machine never stops for want
  of something, and it gives the items, or the error, that the parser gives
  (`registers_set`).
-/

import CommandGrammar.Proofs.Grammar.Mirrors

namespace CommandGrammar.Grammar

variable {r : Reading}

/-! ## States that can be reached -/

namespace Reached

variable {ts : List Token} {s : State}

theorem follows (h : Reached r ts s) : ∃ before inside, Follows r s before inside := by
  induction h with
  | start => exact ⟨[], [], follows_start r⟩
  | step _ hm ih =>
    obtain ⟨_, _, hf⟩ := ih
    obtain ⟨before, inside, hf, -⟩ := hm.follows hf
    exact ⟨before, inside, hf⟩

/-- The latest child, which may be modified or identified, is there. -/
theorem latest (h : Reached r ts s) (hp : s.phase = .between true) : s.level.children ≠ [] := by
  cases h with
  | start => cases hp
  | step hr hm =>
    cases hm with
    | literal => exact List.cons_ne_nil _ _
    | identifier _ hid hd =>
      obtain ⟨_, _, hf⟩ := hr.follows
      obtain ⟨p, rest, hc, -⟩ := hf.awaited _ hid
      obtain ⟨_, hlevel, _⟩ := declare_eq_ok hd
      simp [hlevel, Level.amend, hc]
    | closeParameter => exact List.cons_ne_nil _ _
    | modify => exact List.cons_ne_nil _ _
    | closeGroup => exact List.cons_ne_nil _ _
    | _ => cases hp

/-- Where nothing stands behind a divider, the divider was the last token. -/
theorem divided {fresh : Bool} (h : Reached r ts s) (hp : s.phase = .between fresh) (hc : s.level.children = []) :
    ∀ v ∈ s.level.variants.head?, ts.getLast? = some v.divider := by
  cases h with
  | start => intro v hv; cases hv
  | step hr hm =>
    cases hm with
    | literal => cases hc
    | identifier _ hid hd =>
      obtain ⟨_, _, hf⟩ := hr.follows
      obtain ⟨p, rest, hchildren, -⟩ := hf.awaited _ hid
      obtain ⟨_, hlevel, _⟩ := declare_eq_ok hd
      simp [hlevel, Level.amend, hchildren] at hc
    | closeParameter => cases hc
    | modify => cases hc
    | divide =>
      intro v hv
      cases hv
      exact List.getLast?_concat
    | openGroup => intro v hv; cases hv
    | closeGroup => cases hc
    | _ => cases hp

theorem ready (h : Reached r ts s) : Ready s := by
  obtain ⟨_, _, hf⟩ := h.follows
  refine ⟨hf.room, h.latest, hf.awaited, ?_⟩
  have hcontext := hf.context
  clear hf
  generalize s.opened = os at hcontext
  induction hcontext with
  | bottom => exact List.forall_mem_nil _
  | inside _ _ hfull _ ih => exact List.forall_mem_cons.mpr ⟨hfull, ih⟩

end Reached

/-! ## Runs -/

theorem run_agrees {m : Machine} {s : State} {before : List Token} (h : Mirrors m s) (hr : Reached r before s)
    (ts : List Token) : Agree (ts.foldlM (Machine.step r) m) (ts.foldlM (State.step r) s) := by
  induction ts generalizing m s before with
  | nil => exact .ok h
  | cons t ts ih =>
    rw [List.foldlM_cons, List.foldlM_cons]
    have hstep := h.step (r := r) hr.ready t
    generalize hm : m.step r t = x, hs : s.step r t = y at hstep
    cases hstep with
    | ok h => exact ih h (hr.step (step_eq_ok.mp hs))
    | fault e => exact .fault e

/-- The machine reads a grammar as the parser does. -/
theorem machine_parse (r : Reading) (terminator : Token) (ts : List Token) :
    Machine.parse r terminator ts = (parse r ts).mapError .fault := by
  have hrun := run_agrees mirrors_start (Reached.start (r := r)) ts
  unfold Machine.parse Machine.run parse
  generalize hm : ts.foldlM (Machine.step r) {} = x, hs : ts.foldlM (State.step r) {} = y at hrun
  cases hrun with
  | fault e => rfl
  | @ok m s h =>
    have hr : Reached r ts s := Reached.start.run hs
    refine h.finish fun fresh hp hc v hv => ?_
    rw [hr.divided hp hc v hv]
    rfl

/-! ## What holds of the machine -/

/-- A scope with a choice has a variant, none of its variants is empty, and it is not that of an unordered group. -/
def Frame.Divided (f : Frame) : Prop :=
  ∀ choice ∈ f.choice,
    choice.variants ≠ [] ∧ (∀ variant ∈ choice.variants, variant ≠ []) ∧ f.scope.bracket? ≠ some .unordered

namespace Machine

/-- A group that can be given an identifier: it has none, and the variant group that is all it holds has inherited none. -/
def Unidentified : Pattern → Prop
  | .optional cs id => id = none ∧ Pattern.inherited? cs = none
  | .variants _ id _ _ => id = none
  | .unordered _ id => id = none
  | _ => False

/-- The register of the latest node is set, and to the last child of the innermost scope. -/
def Latest (m : Machine) (p : Pattern) : Prop :=
  ∃ top outer children, m.frames = top :: outer ∧ top.children = children ++ [p] ∧
    m.last = some ⟨outer.length, children.length⟩

/-- What every machine that can be reached keeps to. -/
structure Sound (m : Machine) : Prop where
  /-- There is a scope, and the outermost one and no other is that of the whole grammar. -/
  root : ∃ inner bottom, m.frames = inner ++ [bottom] ∧ bottom.scope = .root ∧ ∀ f ∈ inner, f.scope ≠ .root
  /-- No scope with others inside is closed by a tail. -/
  outside : ∀ f ∈ m.frames.tail, f.tailClosed = false
  opener : m.mode.inParameter = true → m.opener.isSome
  name : m.mode.inParameter = true → m.mode ≠ .beforeName → m.name.isSome
  type : m.mode.inParameter = true → (m.type.isSome ↔ m.mode = .afterType)
  last : m.last.isSome → ∃ p, m.Latest p
  identifier : m.mode = .beforeIdentifier → m.separator.isSome ∧ ∃ p, m.Latest p ∧ Unidentified p
  divided : ∀ f ∈ m.frames, f.Divided

end Machine

theorem root_of_frames (l : Level) (os : List Opened) :
    ∃ inner bottom, frameOf (scopeOf os) l :: outerFrames os = inner ++ [bottom] ∧ bottom.scope = .root ∧
      ∀ f ∈ inner, f.scope ≠ .root := by
  induction os generalizing l with
  | nil => exact ⟨[], _, rfl, rfl, List.forall_mem_nil _⟩
  | cons o rest ih =>
    obtain ⟨inner, bottom, hframes, hroot, hinner⟩ := ih o.outside
    refine ⟨frameOf (scopeOf (o :: rest)) l :: inner, bottom, ?_, hroot, List.forall_mem_cons.mpr ⟨?_, hinner⟩⟩
    · rw [outerFrames, hframes]
      rfl
    · intro hscope
      cases hscope

theorem mem_outerFrames {f : Frame} {os : List Opened} (h : f ∈ outerFrames os) :
    ∃ o ∈ os, f.tailClosed = o.outside.full := by
  induction os with
  | nil => cases h
  | cons o rest ih =>
    rcases List.mem_cons.mp h with rfl | h
    · exact ⟨o, List.mem_cons_self, rfl⟩
    · obtain ⟨o', ho, hf⟩ := ih h
      exact ⟨o', List.mem_cons_of_mem _ ho, hf⟩

theorem divided_frameOf {l : Level} {os : List Opened} {ts : List Terminal} (hl : Reads r l ts) (hu : Undivided os l) :
    (frameOf (scopeOf os) l).Divided := by
  intro choice hchoice
  cases hv : l.variants with
  | nil =>
    simp [frameOf, hv] at hchoice
  | cons v rest =>
    simp only [frameOf, hv, List.isEmpty_cons, Bool.false_eq_true, if_false, Option.mem_def, Option.some.injEq] at hchoice
    subst hchoice
    refine ⟨by simp, ?_, fun hscope => ?_⟩
    · simp only [List.mem_reverse, List.forall_mem_map]
      rw [← hv]
      exact hl.filled
    · cases os with
      | nil => cases hscope
      | cons o rest =>
        have hempty := hu o rfl (Option.some.inj hscope)
        rw [hv] at hempty
        cases hempty

theorem divided_outerFrames {os : List Opened} {ts : List Terminal} (h : Context r os ts) :
    ∀ f ∈ outerFrames os, f.Divided := by
  induction h with
  | bottom => exact List.forall_mem_nil _
  | inside _ hl _ hu ih => exact List.forall_mem_cons.mpr ⟨divided_frameOf hl hu, ih⟩

theorem unidentified_of_written {p : Pattern} (h : p.writtenIdentifier? = some none) : Machine.Unidentified p := by
  cases p with
  | optional cs id =>
    obtain ⟨hinherited, hid⟩ := Option.or_eq_none_iff.mp (Option.some.inj h)
    exact ⟨hid, hinherited⟩
  | variants as id => exact Option.some.inj h
  | unordered cs id => exact Option.some.inj h
  | _ => cases h

theorem Mirrors.latest {m : Machine} {s : State} {p : Pattern} {rest : List Pattern} (h : Mirrors m s)
    (hc : s.level.children = p :: rest) (hplace : s.place? = some ⟨s.opened.length, s.level.children.length - 1⟩) :
    m.Latest p := by
  refine ⟨_, _, rest.reverse, h.frames, ?_, ?_⟩
  · rw [frameOf, hc, List.reverse_cons]
  · rw [h.last, hplace, length_outerFrames, hc, List.length_reverse]
    rfl

namespace Phase

variable {phase : Phase}

theorem inParameter_mode (phase : Phase) : phase.mode.inParameter = phase.inParameter := by
  cases phase with
  | tail opener name raw => cases raw <;> rfl
  | _ => rfl

theorem exists_opener (h : phase.inParameter = true) : ∃ t, phase.opener? = some t := by
  cases phase with
  | between => cases h
  | identifier => cases h
  | _ => exact ⟨_, rfl⟩

theorem exists_name (h : phase.inParameter = true) (hname : phase.mode ≠ .beforeName) : ∃ t, phase.name? = some t := by
  cases phase with
  | between => cases h
  | parameter => exact absurd rfl hname
  | identifier => cases h
  | _ => exact ⟨_, rfl⟩

theorem isSome_type (phase : Phase) : phase.type?.isSome ↔ phase.mode = .afterType := by
  cases phase with
  | tail opener name raw => cases raw <;> simp [type?, mode]
  | _ => simp [type?, mode]

theorem eq_identifier (h : phase.mode = .beforeIdentifier) : ∃ separator, phase = .identifier separator := by
  cases phase with
  | identifier separator => exact ⟨separator, rfl⟩
  | tail opener name raw => cases raw <;> cases h
  | _ => cases h

end Phase

theorem Ready.exists_latest {s : State} (hs : Ready s) (h : s.place?.isSome) :
    ∃ p rest, s.level.children = p :: rest ∧ s.place? = some ⟨s.opened.length, s.level.children.length - 1⟩ := by
  unfold State.place? at h ⊢
  split at h
  · rename_i hp
    obtain ⟨p, rest, hc⟩ := List.exists_cons_of_ne_nil (hs.latest hp)
    exact ⟨p, rest, hc, rfl⟩
  · rename_i separator hp
    obtain ⟨p, rest, hc, -⟩ := hs.awaited separator hp
    exact ⟨p, rest, hc, rfl⟩
  · cases h

theorem Mirrors.sound {m : Machine} {s : State} {ts : List Token} (h : Mirrors m s) (hr : Reached r ts s) : m.Sound := by
  have hs := hr.ready
  obtain ⟨_, _, hf⟩ := hr.follows
  have hinside : m.mode.inParameter = s.phase.inParameter := by rw [h.mode, Phase.inParameter_mode]
  constructor
  case root =>
    rw [h.frames]
    exact root_of_frames s.level s.opened
  case outside =>
    intro f hmem
    rw [h.frames] at hmem
    obtain ⟨o, ho, hfull⟩ := mem_outerFrames hmem
    rw [hfull]
    exact hs.outside o ho
  case opener =>
    rw [hinside]
    intro hparam
    obtain ⟨opener, hopener⟩ := Phase.exists_opener hparam
    rw [h.opener opener hopener]
    rfl
  case name =>
    rw [hinside, h.mode]
    intro hparam hne
    obtain ⟨name, hname⟩ := Phase.exists_name hparam hne
    rw [h.name name hname]
    rfl
  case type =>
    rw [hinside, h.mode]
    intro hparam
    rw [h.type hparam]
    exact s.phase.isSome_type
  case last =>
    intro hlast
    rw [h.last] at hlast
    obtain ⟨p, rest, hc, hplace⟩ := hs.exists_latest hlast
    exact ⟨p, h.latest hc hplace⟩
  case identifier =>
    rw [h.mode]
    intro hmode
    obtain ⟨separator, hp⟩ := Phase.eq_identifier hmode
    obtain ⟨p, rest, hc, hw⟩ := hs.awaited separator hp
    refine ⟨by rw [h.separator separator hp]; rfl, p, h.latest hc ?_, unidentified_of_written hw⟩
    rw [State.place?, hp]
  case divided =>
    rw [h.frames]
    exact List.forall_mem_cons.mpr ⟨divided_frameOf hf.level hf.undivided, divided_outerFrames hf.context⟩

/-- Closing a group is never refused because of a tail in front of it. -/
theorem closeGroup_ne_tailNotLast (s : State) (b : Bracket) (t u : Token) : s.closeGroup b t ≠ fail u .tailNotLast := by
  intro h
  unfold State.closeGroup at h
  split at h
  · split at h
    · cases h
    · split at h
      · split at h <;> cases h
      · cases h
  · cases h

/-- No register is read before it is set: for all tokens the machine gives what the parser gives, an item list or an error
    of the grammar. Every machine that it reaches on the way is sound. It can read any token, to the next machine or to
    an error; and where it closes a group, there is never a tail in front of it that nothing may follow. -/
theorem registers_set (r : Reading) (terminator : Token) (ts : List Token) :
    Machine.parse r terminator ts = (parse r ts).mapError .fault ∧
      ∀ m, Machine.run r ts = .ok m → m.Sound ∧ (∀ t, m.step r t ≠ .error .unset) ∧
        ∀ t b, t.kind = .mark (.closing b) → ∀ u, m.step r t ≠ reject u .tailNotLast := by
  refine ⟨machine_parse r terminator ts, fun m hm => ?_⟩
  have hrun := run_agrees mirrors_start (Reached.start (r := r)) ts
  unfold Machine.run at hm
  rw [hm] at hrun
  generalize hs : ts.foldlM (State.step r) {} = y at hrun
  cases hrun with
  | @ok m s h =>
    have hr : Reached r ts s := Reached.start.run hs
    refine ⟨h.sound hr, fun t hstep => ?_, fun t b hk u hstep => ?_⟩
    · have hagree := h.step (r := r) hr.ready t
      rw [hstep] at hagree
      cases hagree
    · have hagree := h.step (r := r) hr.ready t
      have hclosing : s.step r t = s.closeGroup b t := by rw [State.step, hk]
      rw [hstep, hclosing] at hagree
      generalize hclose : s.closeGroup b t = z at hagree
      cases hagree
      exact closeGroup_ne_tailNotLast s b t u hclose

/-- Inside an open group, behind the separator that an identifier has to follow. -/
theorem registers_set_identifier :
    let r : Reading := ⟨true, (· == ascii "int")⟩
    let ts := tokens .standard (ascii "(x [a|<n: int>]:")
    ∃ m, Machine.run r ts = .ok m ∧ m.mode = .beforeIdentifier ∧ m.frames.length = 2 ∧ m.Sound := by
  intro r ts
  obtain ⟨m, hm, hmode, hframes⟩ : ∃ m, Machine.run r ts = .ok m ∧ m.mode = .beforeIdentifier ∧ m.frames.length = 2 :=
    ⟨_, by rfl, by rfl, by rfl⟩
  exact ⟨m, hm, hmode, hframes, ((registers_set r ⟨.mark .divider, [], 0⟩ ts).2 m hm).1⟩

end CommandGrammar.Grammar
