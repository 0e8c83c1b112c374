import DesignLoads.Proofs.Rulebook.Closure
import DesignLoads.Proofs.Rulebook.Limits
import DesignLoads.Proofs.Rulebook.Requests
import DesignLoads.Proofs.Session.History

/-! The states of rules between calls. No call, whether it succeeds or fails, leaves a rule behind
that is being resolved; what is resolved stays so; and what has failed is not resolved. -/

namespace DesignLoads

open Query

namespace Rulebook

variable {book : Rulebook}

/-- Every query leaves the marks and the path as they were, and kept rules closed under
references. -/
theorem Composed.stable {α : Type} {q : Query α} (h : book.Composed q) {stack : List String}
    {p : Progress} (hp : book.Stable stack p) : book.Stable stack (q.ask p).2 := by
  have hkeeps : Ensures (book.Stable stack) q (fun _ => book.Stable stack) (book.Stable stack) := by
    induction h with
    | pure a => exact ensures_pure fun _ hp => hp
    | liftExcept r => exact ensures_liftExcept (fun _ _ _ hp => hp) fun _ hp => hp
    | alternatives name =>
      intro p hp
      have hafter := alternatives_settles name stack [] p ⟨hp, by simp⟩
      cases he : (book.alternatives name).ask p with
      | mk r p' =>
        rw [he] at hafter
        cases r with
        | ok as => exact hafter.toStable
        | error e => exact hafter
    | bind _ _ ihq ihk => exact ihq.bind ihk
  have hafter := hkeeps p hp
  cases he : q.ask p with
  | mk r p' =>
    rw [he] at hafter
    cases r <;> exact hafter

/-- A query neither loses nor changes what is kept. -/
theorem Composed.kept {α : Type} {q : Query α} (h : book.Composed q) {p : Progress}
    (hp : book.Sound [] .start p) {n : String} {as : List Alternative}
    (hn : p.known? n = some as) : (q.ask p).2.known? n = some as := by
  obtain ⟨r, hr⟩ := h.steady
  have hself : book.Sound [] p p := ⟨hp.opened, hp.known, fun _ _ hm => hm⟩
  exact (hr p p hself).2.kept n as hn

end Rulebook

namespace Session

variable {s : Session}

/-- Between calls no rule is on the path and none is marked as being resolved. What is noted is noted
of rules, and all that a resolved rule refers to is resolved. -/
structure Settled (s : Session) : Prop where
  path : s.progress.path = []
  marks : ∀ name, s.status name ≠ .resolving
  rule : ∀ name slot, s.progress.slots.get? name = some slot → s.book.isRule name
  closed : ∀ name other, s.status name = .resolved → s.book.Refers name other →
    s.status other = .resolved

/-- A call comes to ask for the alternatives of a name, with the progress made until then. -/
inductive Requests [RegexLibrary] (s : Session) : Call → String → Progress → Prop
  | resolve {name : String} (h : s.book.isRule name) : Requests s (.resolve name) name s.progress
  | resolveAll {name : String} {before rest : List String} {p : Progress}
      (hnames : s.book.ruleNames = before ++ name :: rest)
      (hbefore : (s.book.resolveEach before).ask s.progress = (.ok (), p)) :
      Requests s .resolveAll name p
  | ordered {name : String} {before rest : List String} {cs : List Combination} {p : Progress}
      (hnames : s.book.sortedNames = before ++ name :: rest)
      (hbefore : (s.book.combinations (fun _ => false) before).ask s.progress = (.ok cs, p)) :
      Requests s .ordered name p
  | select {patterns : List String} {ps : List Pattern} {name : String}
      {before rest : List String} {cs : List Combination} {p : Progress}
      (hpatterns : patterns.mapM Pattern.parse = .ok ps)
      (hnames : Pattern.select ps s.book.sortedNames = .ok (before ++ name :: rest))
      (hbefore : (s.book.combinations (fun name => ps.any fun p => p.names name) before).ask
        s.progress = (.ok cs, p)) : Requests s (.select patterns) name p
  | expand {rule name : String} {f : Formula} {p : Progress}
      (h : f.Asks (s.book.surroundings rule s.book.alternatives) s.progress name p) :
      Requests s (.expand rule f) name p

/-- The resolution of a name fails at some moment of a call, which may succeed all the same. -/
def Fails [RegexLibrary] (s : Session) (c : Call) (name : String) : Prop :=
  ∃ n p r, s.Requests c n p ∧
    Relation.ReflTransGen s.book.Leads ⟨s.book.rules.length + 1, n, p⟩ r ∧
    r.name = name ∧ ∃ e, s.book.outcome r = .error e

theorem Sound.requests [RegexLibrary] {c : Call} {n : String} {p : Progress} (h : s.Sound)
    (hr : s.Requests c n p) : s.book.Sound [] .start p := by
  have hprefix {α : Type} {q : Query α} {a : α} (hq : s.book.Composed q)
      (hbefore : q.ask s.progress = (.ok a, p)) : s.book.Sound [] .start p := by
    obtain ⟨r, hr⟩ := hq.steady
    have hp := (hr .start s.progress h).2
    rwa [hbefore] at hp
  cases hr with
  | resolve => exact h
  | resolveAll _ hbefore => exact hprefix (Rulebook.resolveEach_composed _) hbefore
  | ordered _ hbefore => exact hprefix (Rulebook.combinations_composed _ _) hbefore
  | select _ _ hbefore => exact hprefix (Rulebook.combinations_composed _ _) hbefore
  | expand hasks => exact (hasks.invariant (fun m _ => Rulebook.alternatives_answers m) h).2

/-- What fails during a call is not kept by anything that is sound. -/
theorem Sound.recompute_of_fails [RegexLibrary] {c : Call} {name : String} (h : s.Sound)
    (hf : s.Fails c name) (as : List Alternative) : s.book.recompute [] name ≠ .ok as := by
  obtain ⟨n, p, r, hr, hleads, rfl, e, he⟩ := hf
  have hfirst := Rulebook.arises_of_sound (h.requests hr) (Nat.lt_succ_self _) n
  exact (hfirst.of_leads hleads).recompute_of_error he as

theorem Sound.status_ne_resolving (h : s.Sound) (name : String) : s.status name ≠ .resolving := by
  rw [status, ne_eq, Progress.status_eq_resolving_iff, h.opened.marks]
  exact List.not_mem_nil

/-- What is noted in a sound session is noted of rules. -/
theorem Sound.isRule_of_slot {name : String} {slot : Slot} (h : s.Sound)
    (hslot : s.progress.slots.get? name = some slot) : s.book.isRule name := by
  cases slot with
  | resolving => exact absurd ((h.opened.marks name).mp hslot) List.not_mem_nil
  | resolved as => exact (h.known name as (Progress.known?_eq_some_iff.mpr hslot)).1

/-- Nothing is noted of a rule that has no alternatives. -/
theorem Sound.slot_eq_none {name : String} (h : s.Sound)
    (hnew : ∀ as, s.book.recompute [] name ≠ .ok as) : s.progress.slots.get? name = none := by
  cases hslot : s.progress.slots.get? name with
  | none => rfl
  | some slot =>
    cases slot with
    | resolving => exact absurd ((h.opened.marks name).mp hslot) List.not_mem_nil
    | resolved as =>
      have hknown := Progress.known?_eq_some_iff.mpr hslot
      exact absurd (h.known name as hknown).2 (hnew as)

theorem stable_perform [RegexLibrary] (h : s.book.Stable [] s.progress) (c : Call) :
    (s.perform c).book.Stable [] (s.perform c).progress := by
  obtain ⟨_, q, hq, hs⟩ | ⟨as, hs⟩ := perform_cases s c
  · rw [hs]
    exact hq.stable h
  · rw [hs]
    exact ⟨h.opened, h.closed⟩

theorem Sound.kept_perform [RegexLibrary] (h : s.Sound) (c : Call) {n : String}
    {as : List Alternative} (hn : s.progress.known? n = some as) :
    (s.perform c).progress.known? n = some as := by
  obtain ⟨_, q, hq, hs⟩ | ⟨bs, hs⟩ := perform_cases s c
  · rw [hs]
    exact hq.kept h hn
  · rw [hs]
    exact hn

theorem stable_of_ofLines {lines baseCases : List String} {settings : Settings}
    (h : ofLines lines baseCases settings = .ok s) : s.book.Stable [] s.progress := by
  have hstart : s.book.Stable [] .start := ⟨Progress.open_start, fun n m hn => by cases hn⟩
  obtain hp | hp := (opened h).progress
  · rwa [hp]
  · rw [hp]
    exact s.book.resolveAll_composed.stable hstart

theorem closed_after [RegexLibrary] {lines baseCases : List String} {settings : Settings}
    (h : ofLines lines baseCases settings = .ok s) (calls : List Call) :
    (s.after calls).book.Closed (s.after calls).progress := by
  have hstable := after_of_perform (P := fun s => s.book.Stable [] s.progress)
    (fun _ c hs => stable_perform hs c) (stable_of_ofLines h) calls
  exact hstable.closed

/-- A query that has settled a rule leaves its alternatives behind. -/
theorem Sound.known_of_settles {α : Type} {q : Query α} {a : α} {names : List String}
    {name : String} (h : s.Sound) (hclosed : s.book.Closed s.progress)
    (hq : s.book.Composed q) (hsettles : s.book.Settles names q)
    (hok : (q.ask s.progress).1 = .ok a) (hname : name ∈ names) (hrule : s.book.isRule name) :
    ∃ as, (q.ask s.progress).2.known? name = some as ∧ s.book.recompute [] name = .ok as := by
  have hafter := hsettles [] [] s.progress ⟨⟨h.opened, hclosed⟩, by simp⟩
  have hsound : s.book.Sound [] .start (q.ask s.progress).2 := h.ask (q := fun _ => q) hq
  cases he : q.ask s.progress with
  | mk r p =>
    rw [he] at hafter hok hsound
    subst hok
    have hknown := hafter.known name (List.mem_append_left _ hname) hrule
    obtain ⟨as, has⟩ := Option.isSome_iff_exists.mp hknown
    exact ⟨as, has, (hsound.known name as has).2⟩

/-- Between calls no rule is being resolved, by the path and by the marks; the resolved rules are
closed under references, and a call leaves every one of them as it is. A rule whose resolution fails
during a call, however deep in it, is unresolved after it. -/
theorem settled_after [RegexLibrary] {lines baseCases : List String} {settings : Settings}
    (h : ofLines lines baseCases settings = .ok s) (calls : List Call) :
    (s.after calls).Settled ∧ ∀ c,
      (∀ name as, (s.after calls).progress.known? name = some as →
        ((s.after calls).perform c).progress.known? name = some as) ∧
      ∀ name, (s.after calls).Fails c name →
        ((s.after calls).perform c).status name = .unresolved := by
  have hs := (sound_of_ofLines h).after calls
  refine ⟨⟨hs.opened.path, hs.status_ne_resolving, fun _ _ hslot => hs.isRule_of_slot hslot, ?_⟩, ?_⟩
  · intro name other hname hstep
    rw [status, Progress.status_eq_resolved_iff] at hname ⊢
    exact closed_after h calls name other hname hstep
  · intro c
    refine ⟨fun name as hn => hs.kept_perform c hn, ?_⟩
    intro name hfails
    have hslot : ((s.after calls).perform c).progress.slots.get? name = none := by
      apply (hs.perform c).slot_eq_none
      intro as has
      obtain ⟨bs, hbook⟩ := perform_book (s.after calls) c
      rw [hbook, Rulebook.recompute_attachments] at has
      exact hs.recompute_of_fails hfails as has
    rw [status, Progress.status, hslot]

attribute [local instance] Regex.library

/-- The circle of `U` and `c` lets `c` fail during a call for `U`. `v` has been resolved before, and
with it `w`; both stay so. -/
theorem settled_after_circle : ∃ s as,
    ofLines ["U = c + v", "c = U & v", "v = w", "w = q"] [] .standard = .ok s ∧
    (s.after [.resolve "v"]).Settled ∧
    (s.after [.resolve "v"]).progress.known? "v" = some as ∧
    (s.after [.resolve "v"]).status "w" = .resolved ∧
    (s.after [.resolve "v"]).Fails (.resolve "U") "c" ∧
    ((s.after [.resolve "v"]).perform (.resolve "U")).progress.known? "v" = some as ∧
    ((s.after [.resolve "v"]).perform (.resolve "U")).status "c" = .unresolved := by
  obtain ⟨s, hs, hrules⟩ := exists_of_opensWith
    (show opensWith ["U = c + v", "c = U & v", "v = w", "w = q"] [] .standard
      [⟨"U", "U = c + v", .sum (.ref "c") (.ref "v")⟩,
        ⟨"c", "c = U & v", .zip (.ref "U") (.ref "v")⟩, ⟨"v", "v = w", .ref "w"⟩,
        ⟨"w", "w = q", .ref "q"⟩] = true by decide +kernel)
  have hfind (name : String) := (s.book.rule?_eq_find? name).trans (by rw [hrules])
  have hU : s.book.rule? "U" = some ⟨"U", "U = c + v", .sum (.ref "c") (.ref "v")⟩ := hfind "U"
  have hc : s.book.rule? "c" = some ⟨"c", "c = U & v", .zip (.ref "U") (.ref "v")⟩ := hfind "c"
  have hv : s.book.rule? "v" = some ⟨"v", "v = w", .ref "w"⟩ := hfind "v"
  have hw : s.book.rule? "w" = some ⟨"w", "w = q", .ref "q"⟩ := hfind "w"
  have hvrule := Rulebook.isRule_iff.mpr ⟨_, hv⟩
  have hwrule := Rulebook.isRule_iff.mpr ⟨_, hw⟩
  -- `v` stands for `q`, and `c` below `U` for nothing
  have hnew : s.book.recompute [] "v" = .ok [.atomic "q"] := by
    rw [Rulebook.recompute_of_not_mem hv (by simp)]
    change (s.book.recompute ["v"] "w").map Alternative.distinct = _
    rw [Rulebook.recompute_of_not_mem hw (by simp)]
    change ((s.book.recompute ["w", "v"] "q").map Alternative.distinct).map _ = _
    rw [Rulebook.recompute_of_none (hfind "q")]
    simp only [Except.map, Alternative.distinct, distinct_singleton]
  have hcircle (as : List Alternative) : s.book.recompute ["U"] "c" ≠ .ok as := by
    intro has
    obtain ⟨bs, hbs⟩ := (Rulebook.recompute_names hc has).2 "U" List.mem_cons_self
    rw [Rulebook.recompute_of_mem hU (by simp)] at hbs
    cases hbs
  have hsound := sound_of_ofLines hs
  have hcases : s.book.loadCasesAnew "v" =
      .ok (LoadCase.canonical ([Alternative.atomic "q"].map (·.case))) := by
    rw [Rulebook.loadCasesAnew, if_pos hvrule, hnew]
    have hzero : ∀ a ∈ [Alternative.atomic "q"], (a.constant == 0) = true := by decide +kernel
    change Alternative.loadCases "v" [Alternative.atomic "q"] = _
    exact Alternative.loadCases_ok hzero
  have hok := hsound.resolve_eq "v"
  rw [hcases] at hok
  obtain ⟨as, has, _⟩ := hsound.known_of_settles (stable_of_ofLines hs).closed
    (s.book.resolve_composed "v") (Rulebook.resolve_settles hvrule) hok List.mem_cons_self hvrule
  obtain ⟨hsettled, hcalls⟩ := settled_after hs [.resolve "v"]
  have hafter : (s.after [.resolve "v"]).Sound := hsound.after _
  have hresolved : (s.after [.resolve "v"]).status "v" = .resolved :=
    Progress.status_eq_resolved_iff.mpr (Option.isSome_iff_exists.mpr ⟨as, has⟩)
  have hslot : (s.after [.resolve "v"]).progress.slots.get? "U" = none := by
    apply hafter.slot_eq_none
    intro bs hbs
    obtain ⟨cs, hcs⟩ := (Rulebook.recompute_names hU hbs).2 "c" List.mem_cons_self
    exact hcircle cs hcs
  have hfails : (s.after [.resolve "v"]).Fails (.resolve "U") "c" := by
    have hleads : s.book.Leads ⟨s.book.rules.length + 1, "U", (s.after [.resolve "v"]).progress⟩
        ⟨s.book.rules.length, "c", (s.after [.resolve "v"]).progress.enter "U"⟩ :=
      .intro hslot hU (.left rfl .ref)
    have harises := (Rulebook.arises_of_sound hafter (Nat.lt_succ_self _) "U").leads hleads
    refine ⟨"U", _, _, .resolve (Rulebook.isRule_iff.mpr ⟨_, hU⟩), .single hleads, rfl, ?_⟩
    rw [harises.outcome_eq, Request.stack, Progress.enter, Progress.push, Progress.mark,
      hsettled.path]
    change ∃ e, s.book.recompute ["U"] "c" = .error e
    cases he : s.book.recompute ["U"] "c" with
    | ok bs => exact absurd he (hcircle bs)
    | error e => exact ⟨e, rfl⟩
  exact ⟨s, as, hs, hsettled, has,
    hsettled.closed "v" "w" hresolved (.intro hv hwrule List.mem_cons_self), hfails,
    (hcalls (.resolve "U")).1 "v" as has, (hcalls (.resolve "U")).2 "c" hfails⟩

end Session

end DesignLoads
