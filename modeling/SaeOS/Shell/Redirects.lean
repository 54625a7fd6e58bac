import SaeOS.Shell.Expansion

/-!
# Where redirections go

The line as it is written still has the words that expand to nothing (`written`). A redirection takes the
first word that is left after its operator, which is the one written there unless that one has vanished.
-/

namespace SaeOS.Shell

/-- The end of a word, of one that vanishes as well. -/
def Lexer.finishWritten (s : Lexer) : Lexer :=
  if s.inWord then ⟨s.tokens ++ [.word s.word s.quoted], [], false, false⟩ else ⟨s.tokens, [], false, false⟩

/-- The line's words and operators as they are written, each word with its expansion. -/
def written (line : Text) (lookup : Lookup) : Except ParseError (List Token) :=
  tokenizeLoop .finishWritten lookup ⟨[], [], false, false⟩ line

/-- The tokens that `tokenize` leaves of a written line. -/
def survivors (tokens : List Token) : List Token :=
  tokens.filter (·.Survives)

/-- The redirections of a line, each with the word immediately after its operator. None if there is no such
word, or it expands to nothing. -/
def targets : List Token → Option (List Redirect)
  | [] => some []
  | .redirect kind :: .word target quoted :: rest =>
    if Token.Survives (.word target quoted) then (targets rest).map (⟨kind, target⟩ :: ·) else none
  | .redirect _ :: _ => none
  | _ :: rest => targets rest

/-- After some operator no word is left before the next operator, the next `;` or the end. -/
def Bare (tokens : List Token) : Prop :=
  ∃ kind rest, .redirect kind :: rest <:+ tokens ∧
    ∀ text quoted, rest.find? (·.Survives) ≠ some (.word text quoted)

/-- Immediately after some operator is a word that expands to nothing, and then, before the next operator,
the next `;` and the end, a word that is left. -/
def Shifted (tokens : List Token) : Prop :=
  ∃ kind rest text quoted, .redirect kind :: .word [] false :: rest <:+ tokens ∧
    rest.find? (·.Survives) = some (.word text quoted)

variable {tokens : List Token} {line : Text} {lookup : Lookup}

/-! ## The written line and its tokens -/

theorem survivors_cons {token : Token} (h : token.Survives) (rest : List Token) :
    survivors (token :: rest) = token :: survivors rest :=
  List.filter_cons_of_pos (by simpa using h)

theorem survivors_cons_vanished {token : Token} (h : ¬ token.Survives) (rest : List Token) :
    survivors (token :: rest) = survivors rest :=
  List.filter_cons_of_neg (by simpa using h)

theorem survivors_head (tokens : List Token) : (survivors tokens).head? = tokens.find? (·.Survives) :=
  List.head?_filter ..

theorem survives_of_mem {token : Token} (h : token ∈ survivors tokens) : token.Survives := by
  simpa using (List.mem_filter.mp h).2

theorem survivors_simulation (lookup : Lookup) :
    Simulation .finishWritten .finish lookup lookup (· = ·) (fun l l' => survivors l = l') where
  refl _ := rfl
  append ha hb := congrArg₂ _ ha hb
  push {l l' token} htoken hl := by
    have hkept : [token].filter (·.Survives) = [token] := List.filter_eq_self.mpr (by simpa using htoken)
    rw [survivors, List.filter_append, ← survivors, hl, hkept]
  finish {s t} hst := by
    obtain ⟨htokens, hword, hin, hquoted⟩ := hst
    rw [Lexer.finishWritten, Lexer.finish, hword, hin, hquoted]
    by_cases ht : t.inWord
    · rw [if_pos ht]
      split_ifs with hsurvives
      · refine ⟨?_, rfl, rfl, rfl⟩
        have hkept : Token.Survives (.word t.word t.quoted) := by
          intro h
          cases hempty : t.word <;> simp_all
        simp [survivors, ← htokens, hkept]
      · -- the word has no text and nothing of it is quoted
        have hvanished : Token.word t.word t.quoted = .word [] false := by
          simp_all
        refine ⟨?_, rfl, rfl, rfl⟩
        simp [survivors, ← htokens, hvanished, Token.Survives]
    · rw [if_neg ht, if_neg (fun h => ht h.1)]
      exact ⟨htokens, rfl, rfl, rfl⟩
  valueOf _ := rfl

theorem written_alike (line : Text) (lookup : Lookup) :
    (written line lookup).Alike (fun l l' => survivors l = l') (tokenize line lookup) :=
  (survivors_simulation lookup).tokenizeLoop_alike ⟨rfl, rfl, rfl, rfl⟩ line

/-! ## Targets -/

theorem targets_cons_redirect (kind : RedirectKind) (rest : List Token) :
    targets (.redirect kind :: rest) = none ↔
      (∀ target quoted, rest.head? = some (.word target quoted) → ¬ Token.Survives (.word target quoted)) ∨
        targets rest = none := by
  cases rest with
  | nil => exact ⟨fun _ => Or.inl (by simp), fun _ => rfl⟩
  | cons token rest =>
    cases token with
    | redirect kind => exact ⟨fun _ => Or.inl (by simp), fun _ => rfl⟩
    | separator => exact ⟨fun _ => Or.inl (by simp), fun _ => rfl⟩
    | word target quoted =>
      rw [targets]
      split_ifs with hsurvives
      · rw [Option.map_eq_none_iff]
        refine ⟨Or.inr, fun h => h.resolve_left fun hall => hall target quoted rfl hsurvives⟩
      · refine ⟨fun _ => Or.inl fun target' quoted' hhead => ?_, fun _ => rfl⟩
        cases hhead
        exact hsurvives

/-- Only the operators and the words right after them count. -/
theorem targets_cons {token : Token} (h : ∀ kind, token ≠ .redirect kind) (rest : List Token) :
    targets (token :: rest) = targets rest := by
  cases token with
  | word text quoted => rfl
  | redirect kind => exact absurd rfl (h kind)
  | separator => rfl

/-- Where each operator has its word, taking the words out that vanish changes nothing. -/
theorem targets_survivors {redirects : List Redirect} (h : targets tokens = some redirects) :
    targets (survivors tokens) = some redirects := by
  fun_induction targets tokens generalizing redirects with
  | case1 => exact h
  | case2 kind target quoted rest hsurvives ih =>
    obtain ⟨redirects, hrest, rfl⟩ := Option.map_eq_some_iff.mp h
    have hkind : Token.Survives (.redirect kind) := fun h => by cases h
    rw [survivors_cons hkind, survivors_cons hsurvives, targets, if_pos hsurvives, ih hrest]
    rfl
  | case3 => cases h
  | case4 => cases h
  | case5 token rest hword hredirect ih =>
    by_cases hsurvives : token.Survives
    · rw [survivors_cons hsurvives, targets_cons hredirect]
      exact ih h
    · rw [survivors_cons_vanished hsurvives]
      exact ih h

theorem bare_cons (token : Token) (rest : List Token) :
    Bare (token :: rest) ↔
      (∃ kind, token = .redirect kind ∧ ∀ text quoted, rest.find? (·.Survives) ≠ some (.word text quoted)) ∨
        Bare rest := by
  constructor
  · rintro ⟨kind, after, hsuffix, hbare⟩
    obtain heq | hsuffix := List.suffix_cons_iff.mp hsuffix
    · obtain ⟨rfl, rfl⟩ := List.cons.inj heq
      exact Or.inl ⟨kind, rfl, hbare⟩
    · exact Or.inr ⟨kind, after, hsuffix, hbare⟩
  · rintro (⟨kind, rfl, hbare⟩ | ⟨kind, after, hsuffix, hbare⟩)
    · exact ⟨kind, rest, List.suffix_rfl, hbare⟩
    · exact ⟨kind, after, hsuffix.trans (List.suffix_cons _ _), hbare⟩

/-- The tokens that are left lack a word after an operator where the operator is bare. -/
theorem targets_survivors_eq_none (tokens : List Token) : targets (survivors tokens) = none ↔ Bare tokens := by
  induction tokens with
  | nil =>
    refine ⟨(fun h => by cases h), fun ⟨kind, rest, hsuffix, _⟩ => ?_⟩
    cases List.suffix_nil.mp hsuffix
  | cons token rest ih =>
    rw [bare_cons, ← ih]
    by_cases hsurvives : token.Survives
    · rw [survivors_cons hsurvives]
      cases token with
      | redirect kind =>
        rw [targets_cons_redirect, survivors_head]
        refine or_congr ⟨fun h => ⟨kind, rfl, fun text quoted hfound => ?_⟩, ?_⟩ Iff.rfl
        · have hkept := List.find?_some hfound
          exact h text quoted hfound (by simpa using hkept)
        · rintro ⟨_, _, hbare⟩ target quoted hfound
          exact absurd hfound (hbare target quoted)
      | word text quoted => exact ⟨Or.inr, fun h => h.resolve_left (by simp)⟩
      | separator => exact ⟨Or.inr, fun h => h.resolve_left (by simp)⟩
    · rw [survivors_cons_vanished hsurvives]
      refine ⟨Or.inr, fun h => h.resolve_left ?_⟩
      rintro ⟨kind, rfl, _⟩
      exact hsurvives (fun h => by cases h)

theorem shifted_cons (token : Token) (rest : List Token) :
    Shifted (token :: rest) ↔ (∃ kind more text quoted, token = .redirect kind ∧
      rest = .word [] false :: more ∧ more.find? (·.Survives) = some (.word text quoted)) ∨ Shifted rest := by
  constructor
  · rintro ⟨kind, more, text, quoted, hsuffix, hfound⟩
    obtain heq | hsuffix := List.suffix_cons_iff.mp hsuffix
    · obtain ⟨rfl, rfl⟩ := List.cons.inj heq
      exact Or.inl ⟨kind, more, text, quoted, rfl, rfl, hfound⟩
    · exact Or.inr ⟨kind, more, text, quoted, hsuffix, hfound⟩
  · rintro (⟨kind, more, text, quoted, rfl, rfl, hfound⟩ | ⟨kind, more, text, quoted, hsuffix, hfound⟩)
    · exact ⟨kind, more, text, quoted, List.suffix_rfl, hfound⟩
    · exact ⟨kind, more, text, quoted, hsuffix.trans (List.suffix_cons _ _), hfound⟩

/-- Where no operator is bare, an operator lacks its word when the word has vanished. -/
theorem targets_eq_none (hbare : ¬ Bare tokens) : targets tokens = none ↔ Shifted tokens := by
  induction tokens with
  | nil =>
    refine ⟨(fun h => by cases h), fun ⟨kind, rest, _, _, hsuffix, _⟩ => ?_⟩
    cases List.suffix_nil.mp hsuffix
  | cons token rest ih =>
    rw [bare_cons, not_or] at hbare
    rw [shifted_cons, ← ih hbare.2]
    by_cases hredirect : ∃ kind, token = .redirect kind
    · obtain ⟨kind, rfl⟩ := hredirect
      -- some word is left after the operator
      obtain ⟨text, quoted, hfound⟩ : ∃ text quoted, rest.find? (·.Survives) = some (.word text quoted) := by
        by_contra hnone
        exact hbare.1 ⟨kind, rfl, fun text quoted hfound => hnone ⟨text, quoted, hfound⟩⟩
      have hkept : Token.Survives (.word text quoted) := by
        simpa using List.find?_some hfound
      rw [targets_cons_redirect]
      refine or_congr_left ⟨fun h => ?_, ?_⟩
      · cases rest with
        | nil => cases hfound
        | cons next more =>
          by_cases hnext : next.Survives
          · -- the word that is left would be the one right after the operator
            rw [List.find?_cons_of_pos (by simpa using hnext)] at hfound
            exact absurd hkept (h text quoted hfound)
          · rw [List.find?_cons_of_neg (by simpa using hnext)] at hfound
            exact ⟨kind, more, text, quoted, rfl, congrArg (· :: more) (not_ne_iff.mp hnext), hfound⟩
      · rintro ⟨_, more, _, _, _, rfl, _⟩ target quoted' hhead
        cases hhead
        exact fun h => h rfl
    · have hother : ∀ kind, token ≠ .redirect kind := fun kind h => hredirect ⟨kind, h⟩
      rw [targets_cons hother]
      refine ⟨Or.inr, fun h => h.resolve_left ?_⟩
      rintro ⟨kind, _, _, _, rfl, _⟩
      exact hother kind rfl

/-! ## What `parse` takes -/

theorem Command.redirects_endInto (current : Command) (commands : List Command) :
    (current.endInto commands).flatMap redirects = commands.flatMap redirects ++ current.redirects := by
  rw [endInto]
  split_ifs with hkept
  · rw [List.flatMap_append, List.flatMap_singleton]
  · rw [not_or, not_ne_iff, not_ne_iff] at hkept
    rw [hkept.2, List.append_nil]

/-- The commands' redirections are those of the tokens, and there is an error where there are none. -/
theorem parseLoop_targets {commands : List Command} {current : Command}
    (htokens : ∀ token ∈ tokens, token.Survives) :
    (parseLoop commands current tokens).toOption.map (·.flatMap Command.redirects) =
      (targets tokens).map (commands.flatMap Command.redirects ++ current.redirects ++ ·) := by
  fun_induction parseLoop commands current tokens with
  | case1 commands current =>
    refine congrArg some ((Command.redirects_endInto current commands).trans ?_)
    exact (List.append_nil _).symm
  | case2 commands current word quoted tokens ih => exact ih (List.forall_mem_of_forall_mem_cons htokens)
  | case3 commands current kind target quoted tokens ih =>
    have hmore := List.forall_mem_of_forall_mem_cons htokens
    rw [ih (List.forall_mem_of_forall_mem_cons hmore), targets, if_pos (hmore _ List.mem_cons_self),
      Option.map_map]
    refine congrArg (Option.map · _) (funext fun redirects => ?_)
    rw [Function.comp_apply, List.append_assoc, List.append_assoc, List.append_assoc]
    rfl
  | case4 commands current kind tokens hnoWord =>
    have hnone : targets (.redirect kind :: tokens) = none := by
      refine (targets_cons_redirect kind tokens).mpr (Or.inl fun target quoted hhead => ?_)
      obtain ⟨more, rfl⟩ := List.head?_eq_some_iff.mp hhead
      exact absurd rfl (hnoWord target quoted more)
    rw [hnone]
    rfl
  | case5 commands current tokens ih =>
    rw [ih (List.forall_mem_of_forall_mem_cons htokens), Command.redirects_endInto, List.append_nil]
    rfl

/-- Where the redirections of a parsed line go: each to the expansion of the word immediately after its
operator, and where that is nothing the line is not parsed. -/
def TargetsWritten (line : Text) (lookup : Lookup) : Prop :=
  ∀ commands, parse line lookup = .ok commands →
    ∃ tokens, written line lookup = .ok tokens ∧ targets tokens = some (commands.flatMap Command.redirects)

theorem parse_targets {tokens : List Token} (h : tokenize line lookup = .ok tokens)
    (htokens : ∀ token ∈ tokens, token.Survives) :
    (parse line lookup).toOption.map (·.flatMap Command.redirects) = targets tokens := by
  rw [parse, h]
  refine (parseLoop_targets htokens).trans ?_
  exact Option.map_id' ..

/-- A redirection goes to a later word exactly if the one after it vanishes and the line is not rejected. -/
theorem targets_written_iff (line : Text) (lookup : Lookup) :
    TargetsWritten line lookup ↔
      ∀ tokens, written line lookup = .ok tokens → Bare tokens ∨ ¬ Shifted tokens := by
  constructor
  · intro h tokens hwritten
    obtain ⟨left, htokenize, rfl⟩ := (written_alike line lookup).exists_of_ok_left hwritten
    have htargets := parse_targets htokenize fun _ => survives_of_mem
    rw [or_iff_not_imp_left]
    intro hbare hshifted
    cases hparse : parse line lookup with
    | error error =>
      -- a line is only rejected for a bare operator
      rw [hparse] at htargets
      exact hbare ((targets_survivors_eq_none tokens).mp htargets.symm)
    | ok commands =>
      obtain ⟨tokens', hwritten', htaken⟩ := h commands hparse
      obtain rfl := Except.ok.inj (hwritten.symm.trans hwritten')
      rw [(targets_eq_none hbare).mpr hshifted] at htaken
      cases htaken
  · intro h commands hparse
    obtain ⟨left, htokenize, _⟩ := Except.bind_eq_ok_iff.mp hparse
    obtain ⟨tokens, hwritten, rfl⟩ := (written_alike line lookup).exists_of_ok htokenize
    have htargets := parse_targets htokenize fun _ => survives_of_mem
    rw [hparse] at htargets
    have hbare : ¬ Bare tokens := fun hbare => by
      rw [(targets_survivors_eq_none tokens).mpr hbare] at htargets
      cases htargets
    refine ⟨tokens, hwritten, ?_⟩
    cases htaken : targets tokens with
    | none => exact absurd ((targets_eq_none hbare).mp htaken) ((h tokens hwritten).resolve_left hbare)
    | some redirects => exact (targets_survivors htaken).symm.trans htargets.symm

/-- With `E` unset, `>$E f` truncates `f` and runs nothing. -/
theorem targets_not_written : ¬ ∀ line lookup, TargetsWritten line lookup := by
  intro h
  obtain ⟨tokens, hwritten, htaken⟩ := h ['>', '$', 'E', ' ', 'f'] (fun _ => none)
    [⟨[], [⟨.output, ['f']⟩]⟩] (by decide +kernel)
  have hvanished : written ['>', '$', 'E', ' ', 'f'] (fun _ => none) =
      .ok [.redirect .output, .word [] false, .word ['f'] false] := by
    decide +kernel
  obtain rfl := Except.ok.inj (hvanished.symm.trans hwritten)
  cases htaken

end SaeOS.Shell
