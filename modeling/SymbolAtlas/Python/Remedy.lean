import SymbolAtlas.Python.Remedy.Change

/-! # Remedies

A source that does not follow the grammar often would if a few tokens near the place of the halt
were passed over, or if one more token stood there. Such changes are tried side by side, each as
long as no better one gets further. Those that make the source follow the grammar, perhaps after
another change further on, are remedies, and the cheapest one tells best where the mistake is.
-/

namespace SymbolAtlas.Python

/-- Where reading a source comes to a halt, from a state on and up to a statement that begins after
an offset; at most `n` statements. -/
def haltBefore? (limit : Nat) : Nat → State → Option Halt
  | 0, s => some ⟨s, s⟩
  | n + 1, s =>
    if s.ahead = .finish || limit < s.start.offset then none
    else
      match Grammar.statement atTop { s with extras := [] } with
      | .ok (_, s') => haltBefore? limit n s'
      | .error e => some ⟨s, e⟩

def State.reread (s : State) (source : List Char) : State :=
  look atTop s.fuel
    { s with stop := { s.stop with rest := source.drop s.stop.offset }, extras := [] }

/-! ## Trials -/

structure Trial where
  change : Change
  /-- How many tokens from the place on it passes over. -/
  skipped : Nat
  /-- Where reading comes to a halt after it. -/
  halt : Option Halt

namespace Trial

def of (s : State) (skipped : Nat) (c : Change) : Trial :=
  let s := s.reread c.text
  ⟨c, skipped, haltBefore? (c.resume + c.delay) s.fuel s⟩

/-- The offset, before the change, of the token at which reading comes to a halt after it. -/
def reached? (t : Trial) : Option Nat := t.halt.map (·.last.start.offset - t.change.delay)

def reaches (t : Trial) (offset : Nat) : Bool := t.reached?.all (offset ≤ ·)

/-- Whether reading gets past the token at an offset. -/
def passes (t : Trial) (offset : Nat) : Bool := t.reached?.all (offset < ·)

/-- Whether the token at which the source goes on fits there. -/
def fits (t : Trial) : Bool := t.passes t.change.resume

/-- How much dearer than another trial a trial may be, divided among the tokens that are read after
the other one. -/
def patience : Nat := 1600

/-- Whether a trial is so much cheaper than another one, which goes on later, that the other one is
given up. Reading must still go on after the cheaper one then. -/
def undercuts (site : Site) (t u : Trial) : Bool :=
  t.change.resume ≤ u.change.resume && t.change.cost < u.change.cost &&
    t.reached?.all fun reached =>
      let read := site.after.countP fun p =>
        t.change.resume ≤ p.start.offset && p.start.offset < reached
      (u.change.resume < reached || reached = site.source.length) &&
        patience < (u.change.cost - t.change.cost) * (2 + read)

def outlasts (t u : Trial) : Bool :=
  u.reached?.any fun reached => t.change.resume ≤ reached && t.passes reached

end Trial

/-! ## Search -/

namespace Site

/-- How many phrases before the place may be passed over. -/
def depth : Nat := 16

/-- Pass over the first `n` tokens from the place on and as few phrases before it as it takes for
the next token to fit. -/
def goOn? (site : Site) (s : State) (n : Nat) : Option Trial :=
  if site.mistakesColon n then none
  else
    (List.range (min depth site.before.length + 1)).findSome? fun m => do
      let change ← if site.isPassable m site.after[n]? then site.passOver? m n else none
      let t := Trial.of s n change
      if t.fits then some t else none

/-- The trials that pass over the first `n` tokens from the place on, or more of them, besides
those found before. One that got past the last of these tokens and is cheaper than to pass over
them ends the search. -/
def trialsFrom (site : Site) (s : State) : Nat → Nat → List Trial → List Trial
  | 0, _, found => found
  | fuel + 1, n, found =>
    let isSettled := 1 < n && found.any fun t =>
      t.change.cost < site.skippingCost n && t.reaches (site.offsetAt n)
    if isSettled then found
    else
      let found := found ++ (site.goOn? s n).toList
      if site.after.length ≤ n then found else site.trialsFrom s fuel (n + 1) found

/-- The changes to try, of which none is given up for another one. -/
def trials (site : Site) (s : State) : List Trial :=
  let supplied := (site.supplies.map (Trial.of s 0)).find? Trial.fits
  let found := site.trialsFrom s (reach + 1) 0 supplied.toList
  found.filter fun u => !found.any fun t => t.undercuts site u || t.outlasts u

end Site

structure Remedy where
  place : Position
  /-- The kind of token that it supplies, if it does. -/
  missing : Option String
  cost : Nat
  /-- How many tokens from the place on the first of the changes to be made passes over. -/
  skipped : Nat

namespace Remedy

def ofTrial (t : Trial) : Remedy := ⟨t.change.place, t.change.missing, t.change.cost, t.skipped⟩

/-- What another change costs by itself. -/
def anotherCost : Nat := 500

def andThen (t : Trial) (r : Remedy) : Remedy :=
  let first := if r.place.before t.change.place then r else ofTrial t
  { first with cost := t.change.cost + anotherCost + r.cost, skipped := t.skipped }

/-- Whether a remedy is better than one that was found earlier. Of equally cheap ones the later is
better if the earlier supplies a token, if both pass over what stands there and the later one goes
on after an operand, or if the token at the place is to blame. -/
def isBetter (site : Site) (r earlier : Remedy) : Bool :=
  r.cost < earlier.cost || r.cost = earlier.cost &&
    (earlier.missing.isSome || 1 ≤ earlier.skipped && site.after[r.skipped]?.any site.endsOperand ||
      earlier.skipped = 0 && r.skipped = 1 && site.blamesThis)

end Remedy

def remedyWithin : Nat → List Char → Halt → Option Remedy
  | 0, _, _ => none
  | n + 1, source, halt =>
    let site := Site.ofHalt source halt
    let remedies := (site.trials halt.statement).filterMap fun t =>
      match t.halt with
      | none => some (Remedy.ofTrial t)
      | some h => (remedyWithin n t.change.text h).map (Remedy.andThen t)
    remedies.foldl (fun best r => if best.all (r.isBetter site) then some r else best) none

/-- The number of characters from which on a source is too long to look for a second change. -/
def longSource : Nat := 4096

def remedy? (source : List Char) (halt : Halt) : Option Remedy :=
  remedyWithin (if source.length < longSource then 2 else 1) source halt

end SymbolAtlas.Python
