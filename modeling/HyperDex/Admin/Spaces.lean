import HyperDex.Admin.Client
import HyperDex.General.Lines

/-!
# The names that `list_spaces` returns

The library answers with one C string that holds the names, one a line. What the
method makes of it is determined by the listing, and determines the listing up to
the line ends behind the last name and the bytes behind the NUL.
-/
namespace HyperDex.Admin
open General Ruby

variable (codes : ReturnCodes)

theorem splitLines_eq_iff (b : Bytes) (names : List Bytes) :
    splitLines b = names ↔ Lines.Joins 10 names b :=
  Lines.split_eq_iff b names

theorem listSpaces_ok {a : Answers} {r : Result} (h : (listSpaces codes a).outcome = .ok r) :
    ∃ text, a.listing = some text ∧ r = .symbols (splitLines (cString text)) := by
  rw [listSpaces] at h
  cases hmake : (makeRequest codes a "list_spaces").outcome with
  | error e => simp [Performed.bind_of_error hmake] at h
  | ok u =>
    rw [Performed.bind_of_ok hmake] at h
    cases htext : a.listing with
    | none => simp [htext, Performed.raise, Performed.ofExcept] at h
    | some text =>
      simp only [htext, pure, Except.ok.injEq] at h
      exact ⟨text, rfl, h.symm⟩

/-- A listing is returned behind a completion, and then the names are its lines. -/
theorem listSpaces_ok_iff (a : Answers) (names : List Bytes) :
    (listSpaces codes a).outcome = .ok (.symbols names) ↔
      (0 ≤ a.reqid ∧ a.loopId = a.reqid) ∧
        ∃ text, a.listing = some text ∧ Lines.Joins 10 names (cString text) := by
  have hreturns : (∃ r, (listSpaces codes a).outcome = .ok r) ↔ _ :=
    call_ok_iff codes .listSpaces a
  constructor
  · intro h
    rcases listSpaces_ok codes h with ⟨text, htext, hnames⟩
    obtain rfl := Result.symbols.inj hnames
    exact ⟨(hreturns.mp ⟨_, h⟩).1, text, htext, (splitLines_eq_iff _ _).mp rfl⟩
  · rintro ⟨hcompleted, text, htext, hjoins⟩
    rcases hreturns.mpr ⟨hcompleted, fun _ => by rw [htext, Option.isSome_some]⟩ with ⟨r, hr⟩
    rcases listSpaces_ok codes hr with ⟨text', htext', rfl⟩
    obtain rfl := Option.some.inj (htext.symm.trans htext')
    rw [hr, (splitLines_eq_iff _ _).mpr hjoins]

end HyperDex.Admin
