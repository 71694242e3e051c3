import TemporalGraph.Document.Basic
import TemporalGraph.Instant.Text
/-!
The versions of one resource as half-open windows of time. In a valid timeline the windows follow
one another without gap or overlap, and only the last one may be open.
-/

namespace TemporalGraph

/-- From `start`, included, up to `stop`, excluded; the window of the current version is open. -/
structure Window where
  start : Instant
  stop : Option Instant
  deriving DecidableEq

namespace Window

def isOpen (w : Window) : Bool := w.stop.isNone

def contains (w : Window) (t : Instant) : Bool :=
  w.start ≤ t && w.stop.all fun stop => t < stop

def nonempty (w : Window) : Bool := w.stop.all fun stop => w.start < stop

def fault? (w : Window) : Option Error :=
  match w.stop with
  | some stop =>
    if stop ≤ w.start then
      some (.invariant s!"window [{w.start.toText}, {stop.toText}) is empty" .invalidWindow)
    else none
  | none => none

def toJson (w : Window) : Json.Value :=
  let instant (t : Instant) : Json.Value := .string (String.ofList t.renderExact)
  .object [("from", instant w.start), ("to", (w.stop.map instant).getD .null)]

def instant? (d : Document) : Option Instant :=
  d.string?.bind fun s => Instant.readRelaxed? s.toList

def ofDocument? (d : Document) : Option Window :=
  match d.slots? ["from", "to"] with
  | some [start, stop] => do return ⟨← start.required? instant?, ← stop.optional? instant?⟩
  | _ => none

end Window

/-- What the insertion of a version did: it replaced the version written at the same instant, closed
the version that was valid then, shown as it was before, and added its own window. -/
structure WindowChange where
  replaced : Option Window
  closed : Option Window
  inserted : Window
  deriving DecidableEq

structure Timeline where
  windows : List Window
  deriving DecidableEq

namespace Timeline

def empty : Timeline := ⟨[]⟩

def ofWindows (ws : List Window) : Timeline := ⟨ws.mergeSort fun a b => a.start ≤ b.start⟩

def windowAt? (tl : Timeline) (t : Instant) : Option Window :=
  tl.windows.find? fun w => w.contains t

def current? (tl : Timeline) : Option Window := tl.windows.find? Window.isOpen

def earliest? : List Instant → Option Instant
  | [] => none
  | t :: ts =>
    match earliest? ts with
    | some u => some (if u < t then u else t)
    | none => some t

/-- Where the windows that start at `t` or later begin, by halving `size` windows from `base` on. -/
def boundary (t : Instant) (ws : List Window) : Nat → Nat → Nat → Nat
  | 0, _, base => base
  | fuel + 1, size, base =>
    let isBefore (i : Nat) : Bool := (ws[i]?).any fun w => w.start < t
    if size ≤ 1 then if isBefore base then base + 1 else base
    else
      let half := size / 2
      boundary t ws fuel (size - half) (if isBefore (base + half) then base + half else base)

def position (t : Instant) (ws : List Window) : Nat := boundary t ws ws.length ws.length 0

def closeAt (ws : List Window) (index : Nat) (t : Instant) : List Window :=
  ws.modify index fun w => { w with stop := some t }

/-- Add the version written at `t`. It takes the place of a version written at the same instant,
ends the version valid at `t`, and is valid itself until that one was, or until the next start. -/
def insert (tl : Timeline) (t : Instant) : Timeline × WindowChange :=
  let same := tl.windows.findIdx? fun w => w.start = t
  let replaced := same.bind fun i => tl.windows[i]?
  let kept := (same.map tl.windows.eraseIdx).getD tl.windows
  let enclosing := kept.findIdx? fun w => w.contains t
  let closed := enclosing.bind fun i => kept[i]?
  let next := earliest? ((kept.map Window.start).filter fun s => t < s)
  let inserted : Window := ⟨t, (closed.bind Window.stop).or next⟩
  let cut := (enclosing.map fun i => closeAt kept i t).getD kept
  (⟨cut.insertIdx (position t cut) inserted⟩, ⟨replaced, closed, inserted⟩)

def conflict? (earlier later : Window) : Option Error :=
  match earlier.stop with
  | none =>
    if later.isOpen then
      some (.invariant
        s!"versions from {earlier.start.toText} and {later.start.toText} are both open"
        .multipleOpen)
    else
      some (.invariant
        s!"open version from {earlier.start.toText} overlaps version from {later.start.toText}"
        .overlap)
  | some stop =>
    if later.start < stop then
      some (.invariant
        s!"version ending {stop.toText} overlaps version from {later.start.toText}" .overlap)
    else if stop < later.start then
      some (.invariant
        s!"no version between {stop.toText} and {later.start.toText}" .gap)
    else none

def firstConflict? : List Window → Option Error
  | a :: b :: ws => (conflict? a b).or (firstConflict? (b :: ws))
  | _ => none

def validate (tl : Timeline) : Except Error Unit :=
  match (tl.windows.findSome? Window.fault?).or (firstConflict? tl.windows) with
  | some e => .error e
  | none => .ok ()

def toJson (tl : Timeline) : Json.Value :=
  .object [("windows", .array (tl.windows.map Window.toJson))]

def ofDocument? (d : Document) : Option Timeline :=
  match d.slots? ["windows"] with
  | some [windows] => do return ⟨← windows.required? (Document.list? Window.ofDocument?)⟩
  | _ => none

end Timeline

end TemporalGraph
