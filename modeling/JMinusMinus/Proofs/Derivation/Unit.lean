import JMinusMinus.Proofs.Parse.Unit

/-!
# A parse without a report is a derivation

A parse starts with nothing to recover from, and the unit it reads is a phrase up to an end of
input. In a text that is the last token (`parse_derives`).
-/

namespace JMinusMinus.Grammar

variable {ts : List Token}

theorem EndsOnce.eq_nil (h : EndsOnce ts) (hplace : eof :: rest <:+ ts)
    (hkind : eof.kind = .endOfInput) : rest = [] := by
  obtain ⟨body, rfl⟩ := hplace
  cases rest with
  | nil => rfl
  | cons t rest => exact absurd hkind (h eof (by simp))

theorem start_upcoming (tokens : List Token) (log : Log Problem) (maxDepth : Nat) :
    (start tokens log maxDepth).upcoming = Cursor.closed tokens := by
  have hplace := (start_sound tokens log maxDepth).place
  have hposition : (start tokens log maxDepth).cursor.position = 0 := by
    simp only [start, Cursor.ofTokens]
    split <;> rfl
  rw [hposition, List.drop_zero] at hplace
  exact hplace.symm

/-- A parse without a report derives its unit up to an end of input. -/
theorem parseUnit_derives (hsilent : (parseUnit file maxDepth tokens log).2.latest = []) :
    ∃ eof rest, eof.kind = .endOfInput ∧ eof :: rest <:+ Cursor.closed tokens ∧
      Derives (.unit file) (Cursor.closed tokens) (parseUnit file maxDepth tokens log).1
        (eof :: rest) := by
  have hstart := start_sound tokens log maxDepth
  have hran := (compilationUnit_moves file).run _ hstart (Nat.lt_succ_self _) trivial
  obtain ⟨-, eof, rest, hkind, hplace, hderives⟩ := (hran.reads hsilent).2 ⟨rfl, rfl⟩
  rw [start_upcoming] at hderives
  exact ⟨eof, rest, hkind, hplace, hderives⟩

/-- A parse that reports nothing is a derivation. The tokens up to the end of input are a phrase
of the category of compilation units, with nothing skipped, and the tree that was built is the tree
of that phrase. -/
theorem parse_derives (file : String) (tokens : List Token) (log : Log Problem) (maxDepth : Nat)
    (htokens : EndsOnce tokens)
    (hsilent : (parseUnit file maxDepth tokens log).2.latest = []) :
    ∃ body eof, Cursor.closed tokens = body ++ [eof] ∧ eof.kind = .endOfInput ∧
      Derives (.unit file) (body ++ [eof]) (parseUnit file maxDepth tokens log).1 [eof] := by
  obtain ⟨eof, rest, hkind, hplace, hderives⟩ := parseUnit_derives hsilent
  obtain rfl := htokens.closed.eq_nil hplace hkind
  obtain ⟨body, hbody⟩ := hplace
  rw [← hbody] at hderives
  exact ⟨body, eof, hbody.symm, hkind, hderives⟩

/-- A choice, a product and a call in a method. -/
def factorialText : String := "class T { int f(int n) { return n < 2 ? 1 : n * f(n - 1); } }"

def factorialTokens : List Token := (readTokens factorialText).1

theorem parse_derives_factorial :
    EndsOnce factorialTokens ∧ (parseUnit "T" 9 factorialTokens {}).2.latest = [] ∧
      ∃ body eof, Cursor.closed factorialTokens = body ++ [eof] ∧ eof.kind = .endOfInput ∧
        Derives (.unit "T") (body ++ [eof]) (parseUnit "T" 9 factorialTokens {}).1 [eof] := by
  have htokens : EndsOnce factorialTokens := tokenize_endsOnce factorialText
  have hsilent : (parseUnit "T" 9 factorialTokens {}).2.latest = [] := by decide +kernel
  exact ⟨htokens, hsilent, parse_derives "T" factorialTokens {} 9 htokens hsilent⟩

end JMinusMinus.Grammar
