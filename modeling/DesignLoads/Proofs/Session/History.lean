import DesignLoads.Proofs.Rulebook.Memoization
import DesignLoads.Regex.Library

/-! Sessions after any calls, which may succeed or fail. What a session has kept from them does not
show: to resolve a name gives what a resolution without a memory gives, failures included. -/

namespace DesignLoads

open Query

inductive Call where
  | resolve (name : String)
  | resolveAll
  | ordered
  | select (patterns : List String)
  | optionsFor (name : String)
  | expand (rule : String) (formula : Formula)
  | attach (pattern : String) (options : Options)

namespace Session

/-- The session after a call, which may have failed. -/
def perform [RegexLibrary] (s : Session) : Call → Session
  | .resolve name => (s.ask fun b => b.resolve name).2
  | .resolveAll => (s.ask fun b => b.resolveAll).2
  | .ordered => (s.ask fun b => b.ordered).2
  | .select patterns => (s.ask fun b => b.select patterns).2
  | .optionsFor _ => s
  | .expand rule f => (s.ask fun b => b.expand rule f).2
  | .attach pattern options =>
    match s.attach pattern options with
    | .ok s => s
    | .error _ => s

def after [RegexLibrary] (s : Session) (calls : List Call) : Session := calls.foldl perform s

end Session

namespace Rulebook

/-- The load cases of a name, computed without a memory. -/
def loadCasesAnew (book : Rulebook) (name : String) : Except Failure (List LoadCase) :=
  if book.isRule name then do
    let as ← book.recompute [] name
    Alternative.loadCases name as
  else .ok [.single name 1]

/-- Attached options have no part in what a name stands for. -/
theorem recompute_attachments (book : Rulebook) (as : List (Pattern × Options))
    (stack : List String) (name : String) :
    { book with attachments := as }.recompute stack name = book.recompute stack name := by
  induction stack, name using recompute.induct book with
  | case1 stack name hr =>
    have hr' : { book with attachments := as }.rule? name = none := hr
    rw [recompute_of_none hr, recompute_of_none hr']
  | case2 stack name rule hr hs =>
    have hr' : { book with attachments := as }.rule? name = some rule := hr
    rw [recompute_of_mem hr hs, recompute_of_mem hr' hs]
  | case3 stack name rule hr hs ih =>
    have hr' : { book with attachments := as }.rule? name = some rule := hr
    rw [recompute_of_not_mem hr hs, recompute_of_not_mem hr' hs]
    congr 1
    exact Formula.expand_congr (by rfl) (by rfl) (fun _ _ => rfl) fun n _ => ih n

variable {book : Rulebook} {first : Progress}

theorem Sound.attachments {stack : List String} {p : Progress} (h : book.Sound stack first p)
    (as : List (Pattern × Options)) : Sound { book with attachments := as } stack first p := by
  refine ⟨h.opened, ?_, h.kept⟩
  intro n bs hn
  obtain ⟨hrule, hnew⟩ := h.known n bs hn
  exact ⟨hrule, (recompute_attachments book as [] n).trans hnew⟩

theorem resolve_answers (name : String) : Answers (book.Sound [] first) (book.resolve name)
    ((book.loadCasesAnew name).map fun cases => ⟨name, cases, book.optionsFor name⟩) := by
  unfold resolve loadCasesAnew
  split
  · have hbind : Answers (book.Sound [] first)
        (book.alternatives name >>= fun as => liftExcept (book.combination name as))
        (book.recompute [] name >>= fun as => liftExcept (book.combination name as)) :=
      (alternatives_answers name).bind fun as _ => answers_liftExcept _
    have heq : (book.recompute [] name >>= fun as => liftExcept (book.combination name as)) =
        (book.recompute [] name >>= fun as => Alternative.loadCases name as).map
          fun cases => ⟨name, cases, book.optionsFor name⟩ := by
      cases book.recompute [] name with
      | error e => rfl
      | ok as =>
        change liftExcept (book.combination name as) =
          (Alternative.loadCases name as).map fun cases => ⟨name, cases, book.optionsFor name⟩
        rw [liftExcept_eq_self, combination]
        cases Alternative.loadCases name as <;> rfl
    rw [← heq]
    exact hbind
  · exact answers_pure _

/-- A query that is put together from the alternatives of names. -/
inductive Composed (book : Rulebook) : {α : Type} → Query α → Prop where
  | pure {α : Type} (a : α) : Composed book (pure a)
  | liftExcept {α : Type} (r : Except Failure α) : Composed book (liftExcept r)
  | alternatives (name : String) : Composed book (book.alternatives name)
  | bind {α β : Type} {q : Query α} {k : α → Query β} (hq : Composed book q)
      (hk : ∀ a, Composed book (k a)) : Composed book (q >>= k)

/-- A query has a single answer, whatever has been asked before. -/
def Steady {α : Type} (book : Rulebook) (q : Query α) : Prop :=
  ∃ r, ∀ first, Answers (book.Sound [] first) q r

theorem Composed.steady {α : Type} {q : Query α} (h : book.Composed q) : book.Steady q := by
  induction h with
  | pure a => exact ⟨.ok a, fun _ => answers_pure a⟩
  | liftExcept r => exact ⟨_, fun _ => answers_liftExcept r⟩
  | alternatives name => exact ⟨_, fun _ => alternatives_answers name⟩
  | bind _ _ ihq ihk =>
    obtain ⟨r, hr⟩ := ihq
    choose s hs using ihk
    exact ⟨r >>= s, fun first => (hr first).bind fun a _ => hs a first⟩

theorem resolve_composed (name : String) : book.Composed (book.resolve name) := by
  unfold resolve
  split
  · exact (Composed.alternatives name).bind fun as => .liftExcept _
  · exact .pure _

def resolveEach (book : Rulebook) (names : List String) : Query Unit :=
  names.forM fun name => do
    let as ← book.alternatives name
    if !Alternative.isFactorSet as then
      let _ ← liftExcept (Alternative.loadCases name as)

theorem resolveEach_composed (names : List String) : book.Composed (book.resolveEach names) := by
  induction names with
  | nil => exact .pure _
  | cons name names ih =>
    refine Composed.bind ?_ fun _ => ih
    apply (Composed.alternatives name).bind
    intro as
    split
    · exact (Composed.liftExcept _).bind fun _ => .pure _
    · exact .pure _

theorem resolveAll_composed (book : Rulebook) : book.Composed book.resolveAll :=
  resolveEach_composed book.ruleNames

theorem combinations_composed (wanted : String → Bool) (names : List String) :
    book.Composed (book.combinations wanted names) := by
  induction names with
  | nil => exact .pure _
  | cons name names ih =>
    apply (Composed.alternatives name).bind
    intro as
    split
    · exact ih
    · apply (Composed.liftExcept _).bind
      intro c
      exact ih.bind fun cs => .pure _

theorem select_composed [RegexLibrary] (patterns : List String) :
    book.Composed (book.select patterns) := by
  apply (Composed.liftExcept _).bind
  intro ps
  apply (Composed.liftExcept _).bind
  intro names
  exact combinations_composed _ names

theorem expandNames_composed (rule : String) (before : List Alternative) (names : List String) :
    book.Composed
      (Formula.expandNames (book.surroundings rule book.alternatives) before names) := by
  induction names generalizing before with
  | nil => exact .pure _
  | cons n ns ih =>
    apply (Composed.alternatives n).bind
    intro next
    exact (Composed.liftExcept _).bind fun all => ih all

theorem expand_composed (rule : String) (f : Formula) : book.Composed (book.expand rule f) := by
  unfold expand
  induction f using Formula.operand_induction with
  | ref name => exact .alternatives name
  | family stem => exact expandNames_composed rule _ _
  | number f => exact (Composed.liftExcept _).bind fun x => .pure _
  | scale a f ih => exact (Composed.liftExcept _).bind fun x => ih.bind fun as => .pure _
  | neg a ih => exact ih.bind fun as => .pure _
  | binary f a b hab iha ihb =>
    rw [Formula.expand_of_operands _ hab]
    exact iha.bind fun as => ihb.bind fun bs => .liftExcept _

end Rulebook

namespace Session

/-- Nothing is being resolved, and what is kept is what would be computed anew. -/
def Sound (s : Session) : Prop := s.book.Sound [] .start s.progress

variable {s : Session}

theorem sound_of_start (book : Rulebook) : Sound ⟨book, .start⟩ := by
  refine ⟨Progress.open_start, fun n as hn => ?_, fun n as hn => hn⟩
  rw [Progress.known?_eq_some_iff] at hn
  cases hn

theorem Sound.ask {α : Type} {q : Rulebook → Query α} (h : s.Sound)
    (hq : s.book.Composed (q s.book)) : (s.ask q).2.Sound := by
  obtain ⟨r, hr⟩ := hq.steady
  exact (hr .start s.progress h).2

/-- What a session is that has been opened with the rules of some lines. -/
structure Opened (lines : List String) (settings : Settings) (s : Session) : Prop where
  rules : Rule.parseLines lines = .ok s.book.rules
  settings : s.book.settings = settings
  attachments : s.book.attachments = []
  progress : s.progress = .start ∨ s.progress = (s.book.resolveAll.ask .start).2

theorem opened {lines baseCases : List String} {settings : Settings}
    (h : ofLines lines baseCases settings = .ok s) : s.Opened lines settings := by
  obtain ⟨rules, hrules, h⟩ := bind_eq_ok_iff.mp h
  obtain ⟨book, hbook, h⟩ := bind_eq_ok_iff.mp h
  have hs : s = ⟨book, .start⟩ ∨ s = ⟨book, (book.resolveAll.ask .start).2⟩ := by
    unfold ofBook at h
    split at h
    · split at h
      · rename_i he
        cases h
        exact .inr (by rw [he])
      · cases h
    · cases h
      exact .inl rfl
  unfold Rulebook.ofRules at hbook
  split at hbook <;> cases hbook
  obtain rfl | rfl := hs
  · exact ⟨hrules, rfl, rfl, .inl rfl⟩
  · exact ⟨hrules, rfl, rfl, .inr rfl⟩

/-- Whether lines open a book with the given rules. -/
def opensWith (lines baseCases : List String) (settings : Settings) (rules : List Rule) : Bool :=
  match ofLines lines baseCases settings with
  | .ok s => s.book.rules = rules
  | .error _ => false

theorem exists_of_opensWith {lines baseCases : List String} {settings : Settings}
    {rules : List Rule} (h : opensWith lines baseCases settings rules) :
    ∃ s, ofLines lines baseCases settings = .ok s ∧ s.book.rules = rules := by
  unfold opensWith at h
  split at h
  · rename_i s hs
    exact ⟨s, hs, of_decide_eq_true h⟩
  · cases h

/-- Every session that can be opened is sound. -/
theorem sound_of_ofLines {lines baseCases : List String} {settings : Settings}
    (h : ofLines lines baseCases settings = .ok s) : s.Sound := by
  have hstart := sound_of_start s.book
  unfold Sound
  obtain hp | hp := (opened h).progress
  · rwa [hp]
  · rw [hp]
    exact hstart.ask (q := fun b => b.resolveAll) s.book.resolveAll_composed

/-- In a sound session a name resolves to what is computed without a memory. -/
theorem Sound.resolve_eq (h : s.Sound) (name : String) :
    (s.ask fun b => b.resolve name).1 = (s.book.loadCasesAnew name).map
      fun cases => ⟨name, cases, s.book.optionsFor name⟩ :=
  (Rulebook.resolve_answers name s.progress h).1

theorem Sound.alternatives_resolve (h : s.Sound) (name : String) :
    (s.ask fun b => b.resolve name).1.map (·.alternatives) = s.book.loadCasesAnew name := by
  rw [h.resolve_eq]
  cases s.book.loadCasesAnew name <;> rfl

/-- In a sound session the alternatives of a name are what is computed without a memory. -/
theorem Sound.alternatives_eq (h : s.Sound) (name : String) :
    (s.ask fun b => b.alternatives name).1 = s.book.recompute [] name :=
  (Rulebook.alternatives_answers name s.progress h).1

section Calls

variable [RegexLibrary]

/-- What a call can do: ask a query that is put together from alternatives, or attach options. -/
theorem perform_cases (s : Session) (c : Call) :
    (∃ (α : Type) (q : Query α), s.book.Composed q ∧
      s.perform c = ⟨s.book, (q.ask s.progress).2⟩) ∨
    ∃ as, s.perform c = ⟨{ s.book with attachments := as }, s.progress⟩ := by
  cases c with
  | resolve name => exact .inl ⟨_, _, Rulebook.resolve_composed name, rfl⟩
  | resolveAll => exact .inl ⟨_, _, Rulebook.resolveAll_composed _, rfl⟩
  | ordered => exact .inl ⟨_, _, Rulebook.combinations_composed _ _, rfl⟩
  | select patterns => exact .inl ⟨_, _, Rulebook.select_composed patterns, rfl⟩
  | expand rule f => exact .inl ⟨_, _, Rulebook.expand_composed rule f, rfl⟩
  | optionsFor name => exact .inr ⟨s.book.attachments, rfl⟩
  | attach pattern options =>
    right
    cases h : s.attach pattern options with
    | error e => exact ⟨s.book.attachments, by simp only [perform, h]⟩
    | ok t =>
      obtain ⟨book, hb, ht⟩ := bind_eq_ok_iff.mp h
      obtain ⟨p, _, hp⟩ := bind_eq_ok_iff.mp hb
      cases ht
      cases hp
      exact ⟨s.book.attachments ++ [(p, options)], by simp only [perform, h]⟩

/-- A call leaves the rules, the base load cases and the settings alone. -/
theorem perform_book (s : Session) (c : Call) :
    ∃ as, (s.perform c).book = { s.book with attachments := as } := by
  obtain ⟨_, _, _, h⟩ | ⟨as, h⟩ := perform_cases s c
  · exact ⟨s.book.attachments, by rw [h]⟩
  · exact ⟨as, by rw [h]⟩

theorem after_book (s : Session) (calls : List Call) :
    ∃ as, (s.after calls).book = { s.book with attachments := as } := by
  induction calls generalizing s with
  | nil => exact ⟨s.book.attachments, rfl⟩
  | cons c cs ih =>
    obtain ⟨as, ha⟩ := perform_book s c
    obtain ⟨bs, hb⟩ := ih (s.perform c)
    rw [ha] at hb
    exact ⟨bs, hb⟩

theorem Sound.perform (h : s.Sound) (c : Call) : (s.perform c).Sound := by
  obtain ⟨_, q, hq, hs⟩ | ⟨as, hs⟩ := perform_cases s c
  · rw [hs]
    exact h.ask (q := fun _ => q) hq
  · rw [hs]
    exact Rulebook.Sound.attachments h as

/-- What every call preserves holds after any calls. -/
theorem after_of_perform {P : Session → Prop} (hstep : ∀ s c, P s → P (perform s c)) (h : P s)
    (calls : List Call) : P (s.after calls) := by
  induction calls generalizing s with
  | nil => exact h
  | cons c cs ih => exact ih (hstep s c h)

theorem Sound.after (h : s.Sound) (calls : List Call) : (s.after calls).Sound :=
  after_of_perform (fun _ c hs => hs.perform c) h calls

theorem loadCasesAnew_after (s : Session) (calls : List Call) (name : String) :
    (s.after calls).book.loadCasesAnew name = s.book.loadCasesAnew name := by
  obtain ⟨as, ha⟩ := after_book s calls
  rw [ha]
  simp only [Rulebook.loadCasesAnew, Rulebook.recompute_attachments]
  rfl

theorem recompute_after (s : Session) (calls : List Call) (name : String) :
    (s.after calls).book.recompute [] name = s.book.recompute [] name := by
  obtain ⟨as, ha⟩ := after_book s calls
  rw [ha, Rulebook.recompute_attachments]

/-- The memory of a session cannot be observed. After any calls on it, failed ones among them, a
name resolves to the alternatives, or fails with the failure, that the session as it was opened
gives, and that a resolution gives which keeps nothing but the stack of the rules being resolved. -/
theorem resolve_ignores_history {lines baseCases : List String} {settings : Settings}
    (h : ofLines lines baseCases settings = .ok s) (calls : List Call) (name : String) :
    ((s.after calls).ask fun b => b.resolve name).1.map (·.alternatives) =
        (s.ask fun b => b.resolve name).1.map (·.alternatives) ∧
      (s.ask fun b => b.resolve name).1.map (·.alternatives) = s.book.loadCasesAnew name := by
  have hs := sound_of_ofLines h
  -- both sessions are sound, and a sound session gives what is computed without a memory
  rw [(hs.after calls).alternatives_resolve, loadCasesAnew_after, hs.alternatives_resolve]
  exact ⟨rfl, rfl⟩

end Calls

attribute [local instance] Regex.library

/-- A rule that fails after others have been kept, a circle through a family, a selection and an
expansion: none of them changes what `w$` stands for. -/
theorem resolve_ignores_history_of_circle : ∃ s, ofLines
      ["U = 1.35*g + w$", "w1 = q | a", "w2 = w1 & A", "A = B + w1", "B = -A"] ["g"] .standard =
        .ok s ∧
    ((s.after [.resolve "U", .resolve "w1", .ordered, .select ["&w", "w1"], .resolveAll,
        .expand "T" (.sum (.ref "w1") (.family "w"))]).ask fun b => b.resolve "U").1.map
          (·.alternatives) =
        (s.ask fun b => b.resolve "U").1.map (·.alternatives) ∧
      (s.ask fun b => b.resolve "U").1.map (·.alternatives) = s.book.loadCasesAnew "U" := by
  have hopen : (ofLines ["U = 1.35*g + w$", "w1 = q | a", "w2 = w1 & A", "A = B + w1", "B = -A"]
      ["g"] .standard).isOk := by decide +kernel
  cases h : ofLines ["U = 1.35*g + w$", "w1 = q | a", "w2 = w1 & A", "A = B + w1", "B = -A"]
      ["g"] .standard with
  | error e => rw [h] at hopen; cases hopen
  | ok s => exact ⟨s, rfl, resolve_ignores_history h _ "U"⟩

end Session

end DesignLoads
