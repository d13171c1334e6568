import BindingCompiler.Proofs.Balance
import BindingCompiler.TemplateText

/-!
Where a tag ends. The count of open braces that the search for the end keeps is the depth of the
nesting less the open interpolations, and one for the tag. It comes down to the brace of the tag
where a scan of the expression alone would meet a brace that closes nothing.
-/

namespace BindingCompiler

namespace Nesting

theorem length_openings_le {n : Nesting} (hn : n.WellFormed) : n.openings.length ≤ n.depth := by
  obtain ⟨region, d, ops⟩ := n
  induction ops generalizing d with
  | nil => exact Nat.zero_le _
  | cons b ops ih =>
      have hrest : WellFormed ⟨region, b, ops⟩ := (List.pairwise_cons.mp hn).2
      have hb : b < d := (List.pairwise_cons.mp hn).1 b (List.mem_cons_self ..)
      have hlen : ops.length ≤ b := ih b hrest
      simp only [List.length_cons]
      omega

/-- The braces that are open in a tag, its own among them. -/
def openBraces (n : Nesting) : Nat :=
  n.depth + 1 - n.openings.length

theorem openBraces_settled (n : Nesting) : n.settled.openBraces = n.openBraces := rfl

theorem Reads.openBraces_skip {n m : Nesting} {c : Char} {next : Option Char} {width : Nat}
    (h : n.Reads c next (.skip width m)) (hn : n.WellFormed) : m.openBraces = n.openBraces := by
  have hlen := length_openings_le hn
  cases h with
  | closeInterpolation =>
      simp only [openBraces, List.length_cons] at hlen ⊢
      omega
  | openInterpolation =>
      simp only [openBraces, List.length_cons] at hlen ⊢
      omega
  | openQuote | openTemplate | blank | closeQuote | escapeQuoted | closeTemplate
  | escapeTemplate => rfl

theorem openBraces_opening {d : Nat} {ops : List Nat}
    (hn : WellFormed ⟨.template false, d, ops⟩) :
    openBraces ⟨.code, d + 1, d :: ops⟩ = openBraces ⟨.template false, d, ops⟩ :=
  Reads.openInterpolation.openBraces_skip hn

end Nesting

namespace TemplateText

open Nesting

variable {n within : Nesting} {c : Char} {next : Option Char}

/-- A character that closes nothing of the tag moves the count as it moves the depth. -/
theorem visitTag_matched (front t : Text) (hr : n.Reads c next (.visit within))
    (hn : n.WellFormed) (hu : ¬ n.Unmatched c) :
    visitTag (.between front (c :: t) within) n.openBraces = .next within.openBraces := by
  have hlen := length_openings_le hn
  have hlater := length_openings_le (hr.wellFormed_visit hn)
  cases hr with
  | @openBrace d ops =>
      have hcount : openBraces ⟨.code, d + 1, ops⟩ = openBraces ⟨.code, d, ops⟩ + 1 := by
        simp only [openBraces] at hlen ⊢
        omega
      rw [hcount]
      rfl
  | @closeBrace d ops _ hd =>
      -- Well-formedness behind the brace keeps the truncated difference from being zero.
      have hpos : d ≠ 0 := fun hz => hu ⟨rfl, hz, rfl⟩
      have hcount : openBraces ⟨.code, d, ops⟩ = d - 1 - ops.length + 2 := by
        simp only [openBraces] at hlater ⊢
        omega
      have hnext : openBraces ⟨.code, d - 1, ops⟩ = d - 1 - ops.length + 1 := by
        simp only [openBraces] at hlater ⊢
        omega
      rw [hcount, hnext]
      rfl
  | @plain _ d ops _ h =>
      obtain ⟨-, -, ho, hc, -⟩ := h
      generalize openBraces ⟨.code, d, ops⟩ = count
      have hin : (Scanner.between front (c :: t) ⟨.code, d, ops⟩).inCode = true := rfl
      simp only [visitTag, Visitor.onCode, hin, if_true, Scanner.here?_between, List.head?_cons]
      split
      case h_1 h => exact absurd (Option.some.inj h) ho
      case h_5 => rfl
      all_goals
        next h => exact absurd (Option.some.inj h) hc
  | quoted | escapedQuoted | template | escapedTemplate => rfl

theorem visitTag_unmatched (front t : Text) (hr : n.Reads c next (.visit within))
    (hn : n.WellFormed) (hu : n.Unmatched c) :
    visitTag (.between front (c :: t) within) n.openBraces =
      if t.head? = some '}' then .stop 0
      else .fail (.found .unterminatedTag (front.byteLength + 1)) 0 := by
  obtain ⟨hcode, hdepth, rfl⟩ := hu
  have hin := (Scanner.between front ('}' :: t) within).inCode_eq_true_iff.mpr
    (hr.region_visit.trans hcode)
  cases eq_outermost_of_depth hn hcode hdepth
  simp only [visitTag, Visitor.onCode, hin, if_true]
  rfl

theorem visitTag_quiet : visitTag.Quiet := by
  apply Visitor.onCode_quiet
  intro s depth
  dsimp only
  split
  case h_3 => split <;> rfl
  all_goals rfl

/-- The search passes over a text in which every closing brace closes something. -/
private theorem watch_visitTag_pass {mid rest : Text} (finish : Scanner) (front : Text)
    (cut : Cut n mid rest) (hn : n.WellFormed) {m : Nesting} (h : n.pass? mid = some m) :
    visitTag.watch finish (n.shown front (mid ++ rest)) n.openBraces =
      visitTag.watch finish (m.shown (front ++ mid) rest) m.openBraces := by
  induction cut generalizing front with
  | here =>
      cases h
      rw [List.append_nil]
      rfl
  | @visit n within c mid rest hr _ ih =>
      by_cases hu : n.Unmatched c
      · simp [pass?_unmatched hu] at h
      · rw [pass?_visit hr.visit_in_front hu] at h
        rw [List.cons_append, shown_visit hr,
          Visitor.watch_next (visitTag_matched front (mid ++ rest) hr hn hu),
          ← openBraces_settled, ih (front ++ [c]) (hr.wellFormed_visit hn) h, List.append_assoc]
        rfl
  | @skip n next c mid rest hr _ ih =>
      by_cases hu : n.Unmatched c
      · simp [pass?_unmatched hu] at h
      · rw [pass?_skip hr.skip_in_front hu] at h
        rw [List.cons_append, shown_skip hr, ← hr.openBraces_skip hn,
          ih (front ++ [c]) (hr.wellFormed_skip hn) h, List.append_assoc]
        rfl
  | @opening d ops mid rest _ ih =>
      rw [List.cons_append, List.cons_append, shown_opening, ← openBraces_opening hn,
        ih (front ++ ['$', '{']) (Reads.openInterpolation.wellFormed_skip hn) h, List.append_assoc]
      rfl

/-- The search passes over a text in which no brace closes nothing at the top. -/
private theorem watch_visitTag_open {t : Text} (finish : Scanner) (front : Text)
    (hn : n.WellFormed) (h : ∀ body rest, t = body ++ '}' :: rest → n.pass? body ≠ some outermost) :
    ∃ count, visitTag.watch finish (n.shown front t) n.openBraces = .atEnd finish count := by
  induction n, t using passage_induction generalizing front with
  | nil n => exact ⟨n.openBraces, rfl⟩
  | visit n c t within hr ih =>
      have hu : ¬ n.Unmatched c := by
        rintro ⟨hcode, hdepth, rfl⟩
        exact h [] t rfl (congrArg some (eq_outermost_of_depth hn hcode hdepth))
      rw [shown_visit hr, Visitor.watch_next (visitTag_matched front t hr hn hu),
        ← openBraces_settled]
      refine ih (front ++ [c]) (hr.wellFormed_visit hn) ?_
      rintro body rest rfl
      have hbody := h (c :: body) rest rfl
      rwa [pass?_visit hr.visit_in_front hu] at hbody
  | skip n c t next hr ih =>
      rw [shown_skip hr, ← hr.openBraces_skip hn]
      refine ih (front ++ [c]) (hr.wellFormed_skip hn) ?_
      rintro body rest rfl
      have hbody := h (c :: body) rest rfl
      rwa [pass?_skip hr.skip_in_front (hr.matched_of_skip hn)] at hbody
  | opening d ops t ih =>
      rw [shown_opening, ← openBraces_opening hn]
      refine ih (front ++ ['$', '{']) (Reads.openInterpolation.wellFormed_skip hn) ?_
      rintro body rest rfl
      exact h ('$' :: '{' :: body) rest rfl

/-- The search comes to an end at the brace behind a balanced text. -/
theorem scan_visitTag_brace (front : Text) {body : Text} (rest : Text) (h : body.Balanced) :
    (Scanner.between front (body ++ '}' :: rest) outermost).scan visitTag 1 =
      if rest.head? = some '}' then
        .stopped (.between (front ++ body) ('}' :: rest) outermost) 0
      else
        .failed (.between (front ++ body) ('}' :: rest) outermost) 0
          (.found .unterminatedTag (Text.byteLength (front ++ body) + 1)) := by
  have hpass := (Text.balanced_iff body).mp h
  have hcut : Cut outermost body ('}' :: rest) :=
    cut_of_code (by rw [after_of_pass? hpass]; rfl)
  have hr : Reads outermost '}' rest.head? (.visit outermost) := .closeBrace nofun
  have hstop := visitTag_unmatched (front ++ body) rest hr wellFormed_outermost ⟨rfl, rfl, rfl⟩
  rw [Scanner.scan_between visitTag_quiet]
  refine (watch_visitTag_pass _ front hcut wellFormed_outermost hpass).trans ?_
  rw [shown_visit hr]
  split at hstop
  · next hnext => rw [Visitor.watch_stop hstop, if_pos hnext]
  · next hnext => rw [Visitor.watch_fail hstop, if_neg hnext]

/-- Without such a brace it comes to the end of the template. -/
theorem scan_visitTag_open (front : Text) {t : Text}
    (h : ∀ body rest, t = body ++ '}' :: rest → ¬ Text.Balanced body) :
    ∃ finish count, (Scanner.between front t outermost).scan visitTag 1 = .atEnd finish count := by
  rw [Scanner.scan_between visitTag_quiet]
  refine ⟨_, watch_visitTag_open _ front wellFormed_outermost ?_⟩
  exact fun body rest ht hpass => h body rest ht ((Text.balanced_iff body).mpr hpass)

theorem tagEnd_brace (front : Text) {body : Text} (rest : Text) (h : body.Balanced) :
    tagEnd (front ++ (body ++ '}' :: rest)) front.byteLength =
      if rest.head? = some '}' then .ok (Text.byteLength (front ++ body))
      else .error (.found .unterminatedTag (Text.byteLength (front ++ body) + 1)) := by
  have hscan := scan_visitTag_brace front rest h
  by_cases hnext : rest.head? = some '}'
  · rw [if_pos hnext] at hscan ⊢
    simp only [tagEnd, Scanner.startAt_between, hscan, Scanner.position_between]
  · rw [if_neg hnext] at hscan ⊢
    simp only [tagEnd, Scanner.startAt_between, hscan]

theorem tagEnd_open {front t : Text}
    (h : ∀ body rest, t = body ++ '}' :: rest → ¬ Text.Balanced body) :
    tagEnd (front ++ t) front.byteLength =
      .error (.found .unterminatedTag (Text.byteLength (front ++ t))) := by
  obtain ⟨finish, count, hscan⟩ := scan_visitTag_open front h
  simp only [tagEnd, Scanner.startAt_between, hscan]

/-- A text has a brace behind a balanced text, or it has none. -/
theorem brace_or_open (t : Text) : (∃ body rest, t = body ++ '}' :: rest ∧ Text.Balanced body) ∨
    ∀ body rest, t = body ++ '}' :: rest → ¬ Text.Balanced body := by
  by_cases h : ∃ body rest, t = body ++ '}' :: rest ∧ Text.Balanced body
  · exact .inl h
  · exact .inr fun body rest ht hbody => h ⟨body, rest, ht, hbody⟩

def tagClosing : Text := ['}', '}']

/-- A tag goes on to the end of its expression, where that is balanced and two braces follow. -/
theorem tagEnd_eq_ok (front : Text) {body : Text} (rest : Text) (h : body.Balanced) :
    tagEnd (front ++ (body ++ (tagClosing ++ rest))) front.byteLength =
      .ok (Text.byteLength (front ++ body)) :=
  (tagEnd_brace front ('}' :: rest) h).trans (if_pos rfl)

theorem exists_body_of_tagEnd {front t : Text} {stop : Nat}
    (h : tagEnd (front ++ t) front.byteLength = .ok stop) :
    ∃ body rest, t = body ++ (tagClosing ++ rest) ∧ body.Balanced ∧
      stop = Text.byteLength (front ++ body) := by
  rcases brace_or_open t with ⟨body, rest, rfl, hbody⟩ | hopen
  · rw [tagEnd_brace front rest hbody] at h
    split at h
    · next hnext =>
        obtain ⟨rest, rfl⟩ := List.head?_eq_some_iff.mp hnext
        cases h
        exact ⟨body, rest, rfl, hbody, rfl⟩
    · cases h
  · rw [tagEnd_open hopen] at h
    cases h

/-- A tag without an end goes on to the end of the template, or to a brace that stands alone. -/
theorem tagEnd_error_cases {front t : Text} {failure : Failure}
    (h : tagEnd (front ++ t) front.byteLength = .error failure) :
    failure = .found .unterminatedTag (Text.byteLength (front ++ t)) ∨
      ∃ body rest, t = body ++ '}' :: rest ∧ rest.head? ≠ some '}' ∧
        failure = .found .unterminatedTag (Text.byteLength (front ++ body) + 1) := by
  rcases brace_or_open t with ⟨body, rest, rfl, hbody⟩ | hopen
  · rw [tagEnd_brace front rest hbody] at h
    split at h
    · cases h
    · next hnext =>
        cases h
        exact .inr ⟨body, rest, rfl, hnext, rfl⟩
  · rw [tagEnd_open hopen] at h
    cases h
    exact .inl rfl

end TemplateText

end BindingCompiler
