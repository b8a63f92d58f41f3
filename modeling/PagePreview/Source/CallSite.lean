/-
PagePreview.Source.CallSite — calls as they stand in the source.

A call is a name, an opening parenthesis, arguments up to the first
closing parenthesis, and an optional semicolon. The document reading and
the analysis see calls through the same `CallSite.read?`, so they always
agree on where a call ends.

* `CallSite.read?` — the call a token list starts with, and the tokens
  after it; there are fewer of them (`length_read?_lt`).
* `openBlock?` — the opening brace a token list starts with.
* `CallSite.label?` — the first argument, if it is a string.
* `CallSite.firstText?` — the first string anywhere in the arguments.
-/
import PagePreview.Source.Token

namespace PagePreview

/-- The opening brace that comes first, and the tokens after it. -/
def openBlock? : List Token → Option (Span × List Token)
  | [] => none
  | t :: rest => if t.isPunct '{' then some (t.span, rest) else none

theorem openBlock?_eq_some_iff {ts inner : List Token} {brace : Span} :
    openBlock? ts = some (brace, inner) ↔ ts = ⟨.punct '{', brace⟩ :: inner := by
  cases ts with
  | nil => simp [openBlock?]
  | cons t rest =>
    obtain ⟨lexeme, span⟩ := t
    simp [openBlock?, Token.isPunct, and_assoc]

theorem length_openBlock?_lt {ts inner : List Token} {brace : Span}
    (h : openBlock? ts = some (brace, inner)) : inner.length < ts.length := by
  simp [openBlock?_eq_some_iff.mp h]

structure CallSite where
  name : String
  /-- Where the name stands. -/
  nameSpan : Span
  /-- Every token between the parentheses. -/
  arguments : List Token
  /-- Where the closing parenthesis stands; absent if the source ends first. -/
  closing : Option Span
  deriving Repr, DecidableEq

namespace CallSite

def dropSemicolon : List Token → List Token
  | [] => []
  | t :: rest => if t.isPunct ';' then rest else t :: rest

/-- The call that starts with the first token: a name and an opening
parenthesis. -/
def read? : List Token → Option (CallSite × List Token)
  | ⟨.ident name, nameSpan⟩ :: ⟨.punct '(', _⟩ :: rest =>
    let arguments := rest.takeWhile (!·.isPunct ')')
    match rest.dropWhile (!·.isPunct ')') with
    | [] => some (⟨name, nameSpan, arguments, none⟩, [])
    | close :: after => some (⟨name, nameSpan, arguments, some close.span⟩, dropSemicolon after)
  | _ => none

theorem length_dropSemicolon_le (ts : List Token) :
    (dropSemicolon ts).length ≤ ts.length := by
  cases ts with
  | nil => simp [dropSemicolon]
  | cons t rest => simp only [dropSemicolon]; split <;> simp

theorem length_read?_lt {ts rest : List Token} {call : CallSite}
    (h : read? ts = some (call, rest)) : rest.length < ts.length := by
  unfold read? at h
  split at h
  · rename_i name span paren after
    have hdrop := (List.dropWhile_sublist (fun t => !Token.isPunct t ')') (l := after)).length_le
    split at h
    · simp only [Option.some.injEq, Prod.mk.injEq] at h
      simp [← h.2]
    · rename_i close remaining heq
      simp only [Option.some.injEq, Prod.mk.injEq] at h
      have hle := length_dropSemicolon_le remaining
      rw [heq] at hdrop
      rw [← h.2]
      simp only [List.length_cons] at *
      omega
  · simp at h

/-- The first argument that is not a comma, if it is a string. -/
def label? (call : CallSite) : Option String :=
  (call.arguments.find? (!·.isPunct ',')).bind (·.text?)

def firstText? (call : CallSite) : Option (String × Span) :=
  call.arguments.findSome? fun t => t.text?.map (·, t.span)

/-- The range from the name to the closing parenthesis, or to the end of
the source where there is none. -/
def span (call : CallSite) (sourceEnd : Nat) : Span :=
  ⟨call.nameSpan.start, (call.closing.map (·.stop)).getD sourceEnd⟩

end CallSite

end PagePreview
