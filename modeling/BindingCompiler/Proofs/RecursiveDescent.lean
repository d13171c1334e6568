import BindingCompiler.Proofs.Regions
import BindingCompiler.Proofs.Scanning

/-!
The scanner agrees with recursive descent. A scan keeps one count of braces and one stack for all
interpolations; the descent keeps nothing but the text. Each region is followed from its first
character to the nesting in which its parent goes on.
-/

namespace BindingCompiler.Regions

def Content.at (s : Scanner) : Content :=
  ⟨s.position, s.inCode, s.nesting.region.isEscaping, s.nesting.openings.length⟩

/-- What reading a text from a nesting shows. -/
def contents (n : Nesting) (front t : Text) : List Content :=
  (n.shown front t).map Content.at

/-- Reading the text shows the content of the part and, where the part is closed, goes on behind
it in another nesting. -/
def Part.Agrees {limit : Nat} (p : Part limit) (n exit : Nesting) (front t : Text) : Prop :=
  match p.ending with
  | .ended region enclosing =>
      contents n front t = p.content ∧ (n.after t).region = region ∧
        (n.after t).openings.length = enclosing
  | .closed offset rest _ =>
      ∃ seen, front ++ t = seen ++ rest ∧ offset = seen.byteLength ∧
        contents n front t = p.content ++ contents exit seen rest ∧ n.after t = exit.after rest

section Composition

variable {l k : Nat} {n m exit : Nesting} {front t : Text} {c : Char}

private theorem byteLength_snoc (front : Text) (c : Char) :
    Text.byteLength (front ++ [c]) = front.byteLength + c.utf8Size := by
  rw [Text.byteLength_append, Text.byteLength_singleton]

theorem contents_skip (h : n.Reads c t.head? (.skip 1 m)) :
    contents n front (c :: t) = contents m (front ++ [c]) t := by
  rw [contents, Nesting.shown_skip h]
  rfl

theorem contents_visit (h : n.Reads c t.head? (.visit m)) :
    contents n front (c :: t) =
      Content.at (.between front (c :: t) m) :: contents m.settled (front ++ [c]) t := by
  rw [contents, Nesting.shown_visit h]
  rfl

theorem agrees_ended {region : Region} (enclosing : Nat) (hn : n.region = region)
    (he : n.openings.length = enclosing) :
    (Part.ended region enclosing : Part l).Agrees n exit front [] :=
  ⟨rfl, hn, he⟩

theorem agrees_closed {offset : Nat} {shorter : t.length ≤ l}
    (h : n.Reads c t.head? (.skip 1 exit)) (ho : offset = front.byteLength) :
    (Part.closed (offset + 1) t shorter).Agrees n exit front (c :: t) := by
  refine ⟨front ++ [c], by simp, ?_, ?_, Nesting.after_skip h⟩
  · rw [byteLength_snoc, h.utf8Size_eq_one, ho]
  · exact contents_skip h

theorem agrees_widen {p : Part l} {h : l ≤ k} :
    (p.widen h).Agrees n exit front t ↔ p.Agrees n exit front t := by
  obtain ⟨content, ending⟩ := p
  cases ending <;> rfl

theorem agrees_skip {p : Part l} (h : n.Reads c t.head? (.skip 1 m))
    (hp : p.Agrees m exit (front ++ [c]) t) : p.Agrees n exit front (c :: t) := by
  obtain ⟨content, ending⟩ := p
  cases ending with
  | ended region enclosing =>
      obtain ⟨hc, hr, he⟩ := hp
      refine ⟨?_, ?_, ?_⟩
      · rw [contents_skip h]
        exact hc
      · rw [Nesting.after_skip h]
        exact hr
      · rw [Nesting.after_skip h]
        exact he
  | closed offset rest shorter =>
      obtain ⟨seen, hs, ho, hc, ha⟩ := hp
      refine ⟨seen, by simpa using hs, ho, ?_, ?_⟩
      · rw [contents_skip h]
        exact hc
      · rw [Nesting.after_skip h]
        exact ha

theorem agrees_behind {p : Part l} {h : l ≤ k} {content : Content}
    (hr : n.Reads c t.head? (.visit m)) (hc : content = Content.at (.between front (c :: t) m))
    (hp : p.Agrees m.settled exit (front ++ [c]) t) :
    (p.behind content h).Agrees n exit front (c :: t) := by
  have hshown : contents n front (c :: t) = content :: contents m.settled (front ++ [c]) t := by
    rw [contents_visit hr, hc]
  obtain ⟨content', ending⟩ := p
  cases ending with
  | ended region enclosing =>
      obtain ⟨hc, hr', he⟩ := hp
      refine ⟨hshown.trans (congrArg _ hc), ?_, ?_⟩
      · rw [Nesting.after_visit hr]
        exact hr'
      · rw [Nesting.after_visit hr]
        exact he
  | closed offset rest shorter =>
      obtain ⟨seen, hs, ho, hc, ha⟩ := hp
      refine ⟨seen, by simpa using hs, ho, hshown.trans (congrArg _ hc), ?_⟩
      rw [Nesting.after_visit hr]
      exact ha

theorem agrees_opening {d : Nat} {ops : List Nat} {p : Part l}
    (hp : p.Agrees ⟨.code, d + 1, d :: ops⟩ exit (front ++ ['$', '{']) t) :
    p.Agrees ⟨.template false, d, ops⟩ exit front ('$' :: '{' :: t) := by
  obtain ⟨content, ending⟩ := p
  cases ending with
  | ended region enclosing => exact hp
  | closed offset rest shorter =>
      obtain ⟨seen, hs, hp⟩ := hp
      exact ⟨seen, by simpa using hs, hp⟩

theorem agrees_andThen {p : Part l} {go : Nat → (rest : Text) → rest.length ≤ l → Part k}
    (hp : p.Agrees n m front t)
    (hgo : ∀ rest shorter (seen : Text), front ++ t = seen ++ rest →
      (go seen.byteLength rest shorter).Agrees m exit seen rest) :
    (p.andThen go).Agrees n exit front t := by
  obtain ⟨content, ending⟩ := p
  cases ending with
  | ended region enclosing => exact hp
  | closed offset rest shorter =>
      obtain ⟨seen, hs, rfl, hc, ha⟩ := hp
      have hq := hgo rest shorter seen hs
      simp only [Part.andThen]
      generalize go seen.byteLength rest shorter = q at hq ⊢
      obtain ⟨content', ending⟩ := q
      cases ending with
      | ended region enclosing =>
          obtain ⟨hc', hr, he⟩ := hq
          refine ⟨?_, ?_, ?_⟩
          · rw [hc, hc']
          · rw [ha]
            exact hr
          · rw [ha]
            exact he
      | closed offset rest' shorter' =>
          obtain ⟨seen', hs', ho, hc', ha'⟩ := hq
          refine ⟨seen', hs.trans hs', ho, ?_, ha.trans ha'⟩
          rw [hc, hc', List.append_assoc]

end Composition

/-- A quoted string goes on in the code that it interrupts. -/
theorem quoted_agrees (quote : Quote) (d : Nat) (ops : List Nat) (offset : Nat) (front t : Text)
    (ho : offset = front.byteLength) :
    (quoted quote ops.length offset t).Agrees ⟨.quoted quote false, d, ops⟩ ⟨.code, d, ops⟩
      front t := by
  cases t with
  | nil => exact agrees_ended _ rfl rfl
  | cons c t =>
      rw [quoted.eq_def]
      dsimp only
      split
      case isTrue h =>
        cases h
        exact agrees_closed .closeQuote ho
      case isFalse hm =>
        split
        case isTrue h =>
          cases h
          cases t with
          | nil => exact agrees_skip .escapeQuoted (agrees_ended _ rfl rfl)
          | cons d' t =>
              refine agrees_skip .escapeQuoted (agrees_behind .escapedQuoted ?_ ?_)
              · rw [Content.at, Scanner.position_between, byteLength_snoc, ho]
                rfl
              · exact quoted_agrees quote d ops _ _ t (by simp only [byteLength_snoc, ho]; rfl)
        case isFalse he =>
          refine agrees_behind (.quoted hm he) ?_ ?_
          · rw [ho]
            rfl
          · exact quoted_agrees quote d ops _ _ t (by rw [byteLength_snoc, ho])
termination_by t.length
decreasing_by all_goals simp only [List.length_cons]; omega

/-- A template literal goes on in the code that it interrupts. -/
def TemplateAgrees (t : Text) : Prop :=
  ∀ d ops offset (front : Text), offset = front.byteLength →
    (template (List.length ops) offset t).Agrees ⟨.template false, d, ops⟩ ⟨.code, d, ops⟩ front t

/-- The code of an interpolation with some braces open goes on in the template literal around it,
under the braces that were open there. -/
def InterpolationAgrees (t : Text) : Prop :=
  ∀ braces d ops offset (front : Text), offset = front.byteLength →
    (interpolation (List.length ops + 1) braces offset t).Agrees ⟨.code, d + 1 + braces, d :: ops⟩
      ⟨.template false, d, ops⟩ front t

private theorem template_step (t : Text)
    (ht : ∀ s : Text, s.length < t.length → TemplateAgrees s)
    (hi : ∀ s : Text, s.length < t.length → InterpolationAgrees s) : TemplateAgrees t := by
  intro d ops offset front ho
  rw [template.eq_def]
  cases t with
  | nil => exact agrees_ended _ rfl rfl
  | cons c t =>
      dsimp only
      split
      case isTrue h =>
        cases h
        exact agrees_closed .closeTemplate ho
      case isFalse hm =>
        split
        case isTrue h =>
          cases h
          cases t with
          | nil => exact agrees_skip .escapeTemplate (agrees_ended _ rfl rfl)
          | cons e t =>
              refine agrees_skip .escapeTemplate (agrees_behind .escapedTemplate ?_ ?_)
              · rw [Content.at, Scanner.position_between, byteLength_snoc, ho]
                rfl
              · apply ht t (by simp only [List.length_cons]; omega)
                simp only [byteLength_snoc, ho]
                rfl
        case isFalse he =>
          split
          case isTrue h =>
            obtain ⟨rfl, hh⟩ := h
            cases t with
            | nil => cases hh
            | cons e t =>
                cases hh
                refine agrees_opening (agrees_andThen (m := ⟨.template false, d, ops⟩) ?_ ?_)
                · apply hi t (by simp only [List.length_cons]; omega) 0
                  rw [Text.byteLength_append, ho]
                  rfl
                · intro rest shorter seen hs
                  have hlt : rest.length < ('$' :: '{' :: t).length := by
                    simp only [List.tail_cons] at shorter
                    simp only [List.length_cons]
                    omega
                  exact agrees_widen.mpr (ht rest hlt d ops _ seen rfl)
          case isFalse hopen =>
            refine agrees_behind (.template hopen hm he) ?_ ?_
            · rw [ho]
              rfl
            · exact ht t (Nat.lt_succ_self _) d ops _ _ (by rw [byteLength_snoc, ho])

private theorem interpolation_step (t : Text)
    (ht : ∀ s : Text, s.length < t.length → TemplateAgrees s)
    (hi : ∀ s : Text, s.length < t.length → InterpolationAgrees s) : InterpolationAgrees t := by
  intro braces d ops offset front ho
  rw [interpolation.eq_def]
  cases t with
  | nil => exact agrees_ended _ rfl rfl
  | cons c t =>
      have ih (braces offset) (front : Text) := hi t (Nat.lt_succ_self _) braces d ops offset front
      have hnext : offset + c.utf8Size = Text.byteLength (front ++ [c]) := by
        rw [byteLength_snoc, ho]
      dsimp only
      split
      case h_1 quote hq =>
        cases Quote.ofMark?_eq_some_iff.mp hq
        refine agrees_skip .openQuote (agrees_andThen (quoted_agrees quote _ (d :: ops) _ _ t ?_) ?_)
        · rw [byteLength_snoc, ho]
          cases quote <;> rfl
        · intro rest shorter seen hs
          exact agrees_widen.mpr (hi rest (Nat.lt_succ_of_le shorter) braces d ops _ seen rfl)
      case h_2 hq =>
        split
        case isTrue h =>
          cases h
          refine agrees_skip .openTemplate (agrees_andThen
            (ht t (Nat.lt_succ_self _) _ (d :: ops) _ _ ?_) ?_)
          · rw [byteLength_snoc, ho]
            rfl
          · intro rest shorter seen hs
            exact agrees_widen.mpr (hi rest (Nat.lt_succ_of_le shorter) braces d ops _ seen rfl)
        case isFalse hm =>
          split
          case isTrue h =>
            cases h
            refine agrees_behind .openBrace ?_ (ih (braces + 1) _ _ ?_)
            · rw [ho]
              rfl
            · exact hnext
          case isFalse hopen =>
            split
            case isTrue h =>
              cases h
              -- The depth is that of the template literal exactly when the own count is zero.
              cases braces with
              | zero => exact agrees_closed .closeInterpolation ho
              | succ braces =>
                  refine agrees_behind (.closeBrace ?_) ?_ (ih braces _ _ hnext)
                  · simp only [List.head?_cons, ne_eq, Option.some.injEq]
                    omega
                  · rw [ho]
                    rfl
            case isFalse hclose =>
              split
              case isTrue hb =>
                refine agrees_skip (.blank hb) (agrees_widen.mpr (ih braces _ _ ?_))
                rw [← hnext, Nesting.utf8Size_of_isCodeBlank hb]
              case isFalse hb =>
                refine agrees_behind (.plain ⟨hq, hm, hopen, hclose, ?_⟩) ?_ (ih braces _ _ hnext)
                · exact Bool.eq_false_iff.mpr hb
                · rw [ho]
                  rfl

/-- The two regions that go inside each other agree together, by induction on the length of the
text that is left. -/
private theorem nested_regions_agree (t : Text) : TemplateAgrees t ∧ InterpolationAgrees t := by
  induction h : t.length using Nat.strongRecOn generalizing t with
  | ind length ih =>
      have ht (s : Text) (hs : s.length < t.length) := (ih _ (h ▸ hs) s rfl).1
      have hi (s : Text) (hs : s.length < t.length) := (ih _ (h ▸ hs) s rfl).2
      exact ⟨template_step t ht hi, interpolation_step t ht hi⟩

/-- Reading the text from a nesting shows the content of the outline and ends where it ends. -/
def Outline.Agrees (o : Outline) (n : Nesting) (front t : Text) : Prop :=
  contents n front t = o.content ∧ (n.after t).region = o.region ∧
    (n.after t).openings.length = o.enclosing

theorem agrees_finish {l : Nat} {n m : Nesting} {front t : Text} {p : Part l}
    {go : Nat → (rest : Text) → rest.length ≤ l → Outline}
    (hp : p.Agrees n m front t)
    (hgo : ∀ rest shorter (seen : Text), (go seen.byteLength rest shorter).Agrees m seen rest) :
    (p.finish go).Agrees n front t := by
  obtain ⟨content, ending⟩ := p
  cases ending with
  | ended region enclosing => exact hp
  | closed offset rest shorter =>
      obtain ⟨seen, hs, rfl, hc, ha⟩ := hp
      obtain ⟨hc', hr, he⟩ := hgo rest shorter seen
      refine ⟨?_, ?_, ?_⟩
      · rw [hc, hc']
        rfl
      · rw [ha]
        exact hr
      · rw [ha]
        exact he

private theorem outline_skip {n m : Nesting} {c : Char} {front t : Text} {o : Outline}
    (h : n.Reads c t.head? (.skip 1 m)) (ho : o.Agrees m (front ++ [c]) t) :
    o.Agrees n front (c :: t) := by
  obtain ⟨hc, hr, he⟩ := ho
  refine ⟨?_, ?_, ?_⟩
  · rw [contents_skip h]
    exact hc
  · rw [Nesting.after_skip h]
    exact hr
  · rw [Nesting.after_skip h]
    exact he

private theorem outline_visit {d d' : Nat} {c : Char} {front t : Text} {o : Outline}
    (h : Nesting.Reads ⟨.code, d, []⟩ c t.head? (.visit ⟨.code, d', []⟩))
    (ho : o.Agrees ⟨.code, d', []⟩ (front ++ [c]) t) :
    Outline.Agrees { o with content := ⟨front.byteLength, true, false, 0⟩ :: o.content }
      ⟨.code, d, []⟩ front (c :: t) := by
  obtain ⟨hc, hr, he⟩ := ho
  refine ⟨?_, ?_, ?_⟩
  · rw [contents_visit h]
    exact congrArg _ hc
  · rw [Nesting.after_visit h]
    exact hr
  · rw [Nesting.after_visit h]
    exact he

/-- At the top no interpolation is open, and any number of braces may be. -/
private theorem code_step (t : Text)
    (ih : ∀ s : Text, s.length < t.length → ∀ d offset (front : Text), offset = front.byteLength →
      (code offset s).Agrees ⟨.code, d, []⟩ front s)
    (d offset : Nat) (front : Text) (ho : offset = front.byteLength) :
    (code offset t).Agrees ⟨.code, d, []⟩ front t := by
  rw [code.eq_def]
  cases t with
  | nil => exact ⟨rfl, rfl, rfl⟩
  | cons c t =>
      have hnext : offset + c.utf8Size = Text.byteLength (front ++ [c]) := by
        rw [byteLength_snoc, ho]
      have hrest (d : Nat) := ih t (Nat.lt_succ_self _) d _ (front ++ [c]) hnext
      subst ho
      dsimp only
      split
      case h_1 quote hq =>
        cases Quote.ofMark?_eq_some_iff.mp hq
        refine outline_skip .openQuote (agrees_finish (quoted_agrees quote d [] _ _ t ?_) ?_)
        · rw [byteLength_snoc]
          cases quote <;> rfl
        · intro rest shorter seen
          exact ih rest (Nat.lt_succ_of_le shorter) d _ seen rfl
      case h_2 hq =>
        split
        case isTrue h =>
          cases h
          refine outline_skip .openTemplate
            (agrees_finish ((nested_regions_agree t).1 d [] _ _ ?_) ?_)
          · rw [byteLength_snoc]
            rfl
          · intro rest shorter seen
            exact ih rest (Nat.lt_succ_of_le shorter) d _ seen rfl
        case isFalse hm =>
          split
          case isTrue hb =>
            rw [Nesting.utf8Size_of_isCodeBlank hb] at hrest
            exact outline_skip (.blank hb) (hrest d)
          case isFalse hb =>
            -- Braces at the top are plain content here, though the nesting counts them.
            by_cases hopen : c = '{'
            · cases hopen
              exact outline_visit .openBrace (hrest (d + 1))
            · by_cases hclose : c = '}'
              · cases hclose
                exact outline_visit (.closeBrace (by simp)) (hrest (d - 1))
              · exact outline_visit (.plain ⟨hq, hm, hopen, hclose, Bool.eq_false_iff.mpr hb⟩)
                  (hrest d)

theorem code_agrees (t : Text) (d offset : Nat) (front : Text) (ho : offset = front.byteLength) :
    (code offset t).Agrees ⟨.code, d, []⟩ front t := by
  induction h : t.length using Nat.strongRecOn generalizing t d offset front with
  | ind length ih =>
      apply code_step t _ d offset front ho
      intro s hs d offset front ho
      exact ih _ (h ▸ hs) s d offset front ho rfl

/-- Every scan of a whole text that nothing stops shows its visitor the same characters, and they
are those that recursive descent finds. The scan ends at the end of the text, in the region and
inside as many interpolations as the descent does. -/
theorem scan_agrees_with_descent (source : Text) :
    ∃ shown : List Scanner,
      (∀ {σ ε : Type} (observe : Scanner → σ → σ) (memory : σ),
        (Scanner.start source).scan (.observing observe : Visitor σ ε) memory =
          .atEnd (Scanner.start source).finish
            (shown.foldl (fun memory s => observe s memory) memory)) ∧
      shown.map Content.at = (code 0 source).content ∧
      (Scanner.start source).finish.position = source.byteLength ∧
      (Scanner.start source).finish.nesting.region = (code 0 source).region ∧
      (Scanner.start source).finish.nesting.openings.length = (code 0 source).enclosing := by
  obtain ⟨hc, hr, he⟩ := code_agrees source 0 0 [] rfl
  rw [Scanner.finish_start]
  refine ⟨Nesting.outermost.shown [] source, ?_, hc, rfl, hr, he⟩
  intro σ ε observe memory
  rw [Scanner.scan_start (Visitor.quiet_observing observe), Visitor.watch_observing]

end BindingCompiler.Regions
