import Viy.Facts.RoundTrip

/-!
# The ledger order of facts

`payloadLess`, `evidenceLess` and `analysisFactLess` compare canonical bytes; a value that does not
encode sorts by its error behind all that do. On valid evidence the order is that of the encoding
(`evidenceLess_eq`), and equivalence is equality (`evidenceEqual_iff`).
-/

namespace Viy.Analysis

open Wire

def invalidSortKey (message : Bytes) : Bytes := 0xff :: message

/-- The bytes a comparison uses. -/
def sortKey : Except Bytes Bytes → Bytes
  | .ok encoded => encoded
  | .error message => invalidSortKey message

def payloadLess (lhs rhs : FactPayload) : Bool :=
  bytesOrder.less (sortKey (encodePayload lhs)) (sortKey (encodePayload rhs))

def evidenceLess (lhs rhs : Evidence) : Bool :=
  bytesOrder.less (sortKey (encodeEvidence lhs)) (sortKey (encodeEvidence rhs))

def analysisFactLess (lhs rhs : AnalysisFact) : Bool :=
  if payloadLess lhs.payload rhs.payload then true
  else if payloadLess rhs.payload lhs.payload then false
  else evidenceLess lhs.evidence rhs.evidence

def evidenceEqual (lhs rhs : Evidence) : Bool := !evidenceLess lhs rhs && !evidenceLess rhs lhs

theorem encodeEvidence_of_valid {e : Evidence} (h : validateEvidence e = .ok ()) :
    encodeEvidence e = .ok (evidenceForm e) :=
  bind_eq_ok.2 ⟨e, normalizeEvidence_eq_ok.2 ⟨h, normalEvidence_of_valid h⟩,
    encodeNormalizedEvidence_of_valid h⟩

theorem evidenceLess_eq {e e' : Evidence} (h : validateEvidence e = .ok ())
    (h' : validateEvidence e' = .ok ()) :
    evidenceLess e e' = bytesOrder.less (evidenceForm e) (evidenceForm e') := by
  rw [evidenceLess, encodeEvidence_of_valid h, encodeEvidence_of_valid h']
  rfl

theorem evidenceEqual_iff {e e' : Evidence} (h : validateEvidence e = .ok ())
    (h' : validateEvidence e' = .ok ()) : evidenceEqual e e' = true ↔ e = e' := by
  rw [evidenceEqual, evidenceLess_eq h h', evidenceLess_eq h' h, Bool.and_eq_true,
    Bool.not_eq_true', Bool.not_eq_true', bytesOrder.incomparable_iff]
  exact ⟨evidenceForm_injective h h', fun heq => heq ▸ rfl⟩

theorem encodePayload_of_valid {p : FactPayload} (h : validatePayload p = .ok ()) :
    encodePayload p = encodeNormalizedPayload p := by
  rw [encodePayload, normalizePayload_eq_ok.2 ⟨h, normalForm_of_valid h⟩]
  rfl

end Viy.Analysis
