import DesignLoads.Proofs.Formula.Places
import DesignLoads.Proofs.Session.Expansion

/-! The places of alternatives in an expansion, told from the lists that a session keeps. -/

namespace DesignLoads

namespace Session

variable {s : Session}

/-- An expansion has as many alternatives as follow from the lists that are kept afterwards, and
each is at its place made of alternatives of the operands at theirs. A zip fails as an operand does,
or else by itself exactly if the operands have different numbers of alternatives and neither has a
single one. -/
theorem expansion_places [RegexLibrary] {lines baseCases : List String} {settings : Settings}
    (h : ofLines lines baseCases settings = .ok s) (calls : List Call) (rule : String) :
    (∀ f as, (s.after calls).expansion rule f = .ok as →
      as.length = f.count s.book.extending ((s.after calls).perform (.expand rule f)).kept ∧
      ∀ i, as[i]? = f.nth? s.book.extending ((s.after calls).perform (.expand rule f)).kept i) ∧
    ∀ a b e, (s.after calls).expansion rule (.zip a b) = .error e ↔
      (s.after calls).expansion rule a = .error e ∨
      ∃ as, (s.after calls).expansion rule a = .ok as ∧
        ((s.after calls).expansion rule b = .error e ∨
        ∃ bs, (s.after calls).expansion rule b = .ok bs ∧
          (as.length ≠ bs.length ∧ as.length ≠ 1 ∧ bs.length ≠ 1) ∧
          e = .incompatibleZip as.length bs.length) := by
  refine ⟨?_, ?_⟩
  · intro f as has
    have hkept := ((sound_of_ofLines h).after calls).recompute_kept (closed_after h calls) has
    obtain ⟨attachments, hbook⟩ := after_book s calls
    have hfamily : (s.after calls).book.extending = s.book.extending := by rw [hbook]; rfl
    rw [hfamily] at hkept
    have hrefer : ∀ n ∈ f.names s.book.extending, s.book.recompute [] n =
        .ok (((s.after calls).perform (.expand rule f)).kept n) := by
      intro n hn
      rw [← recompute_after s calls, hkept n hn]
    rw [expansion_after h] at has
    exact Formula.expand_places hrefer has
  · intro a b e
    simp only [expansion_after h]
    rw [Formula.expand, bind_eq_error_iff]
    simp only [bind_eq_error_iff, liftExcept_eq_self, Alternative.zips_error_iff]

attribute [local instance] Regex.library

/-- A load zipped with each of a family, and added to a choice in two rows. -/
theorem expansion_places_of_family : ∃ s f as,
    ofLines ["w1 = a | b", "w2 = c"] [] ⟨none, false⟩ = .ok s ∧
    f = .sum (.zip (.ref "g") (.family "w")) (.choice (.ref "x") (.ref "w2")) ∧
    (s.after [.resolve "w2"]).expansion "T" f = .ok as ∧
    as.length = f.count s.book.extending
      ((s.after [.resolve "w2"]).perform (.expand "T" f)).kept ∧
    ∀ i, as[i]? = f.nth? s.book.extending
      ((s.after [.resolve "w2"]).perform (.expand "T" f)).kept i := by
  obtain ⟨s, hs, hrules⟩ : ∃ s, ofLines ["w1 = a | b", "w2 = c"] [] ⟨none, false⟩ = .ok s ∧
      s.book.rules = [⟨"w1", "w1 = a | b", .choice (.ref "a") (.ref "b")⟩,
        ⟨"w2", "w2 = c", .ref "c"⟩] := exists_of_opensWith (by decide +kernel)
  have hlimit : s.book.settings.maxAlternatives = none := by rw [(opened hs).settings]
  have hfamily : s.book.extending "w" = ["w1", "w2"] := by
    rw [Rulebook.extending, Rulebook.ruleNames, hrules]
    decide
  have hbase (stack : List String) : ∀ n ∈ ["a", "b", "c", "g", "x"],
      s.book.recompute stack n = .ok [.atomic n] := by
    intro n hn
    apply Rulebook.recompute_of_none
    rw [Rulebook.rule?_eq_find?, hrules]
    revert n
    decide
  have hw1 : s.book.recompute [] "w1" =
      .ok (Alternative.distinct [.atomic "a", .atomic "b"]) := by
    have hrule : s.book.rule? "w1" =
        some ⟨"w1", "w1 = a | b", .choice (.ref "a") (.ref "b")⟩ := by
      rw [Rulebook.rule?_eq_find?, hrules]
      rfl
    rw [Rulebook.recompute_of_not_mem hrule (by simp), Rulebook.surroundings, hlimit]
    simp only [Formula.expand, hbase _ "a" (by simp), hbase _ "b" (by simp)]
    rfl
  have hw2 : s.book.recompute [] "w2" = .ok (Alternative.distinct [.atomic "c"]) := by
    have hrule : s.book.rule? "w2" = some ⟨"w2", "w2 = c", .ref "c"⟩ := by
      rw [Rulebook.rule?_eq_find?, hrules]
      rfl
    rw [Rulebook.recompute_of_not_mem hrule (by simp), Rulebook.surroundings, hlimit]
    simp only [Formula.expand, hbase _ "c" (by simp)]
    rfl
  obtain ⟨as, has⟩ : ∃ as, (s.after [.resolve "w2"]).expansion "T"
      (.sum (.zip (.ref "g") (.family "w")) (.choice (.ref "x") (.ref "w2"))) = .ok as := by
    have hzip (a : Alternative) (bs : List Alternative) :
        ∃ cs, Alternative.zips [a] bs = .ok cs := by
      unfold Alternative.zips
      split
      · exact ⟨_, rfl⟩
      · exact ⟨_, rfl⟩
    obtain ⟨cs, hcs⟩ := hzip (.atomic "g")
      ([] ++ Alternative.distinct [.atomic "a", .atomic "b"] ++ Alternative.distinct [.atomic "c"])
    rw [expansion_after hs, Rulebook.surroundings, hlimit]
    simp only [Formula.expand, Formula.expandNames, hfamily, hbase _ "g" (by simp),
      hbase _ "x" (by simp), hw1, hw2]
    change ∃ as, (liftExcept (Alternative.zips _ _) >>= _ :
      Except Failure (List Alternative)) = .ok as
    rw [hcs]
    exact ⟨_, rfl⟩
  exact ⟨s, _, as, hs, rfl, has, (expansion_places hs [.resolve "w2"] "T").1 _ as has⟩

end Session

end DesignLoads
