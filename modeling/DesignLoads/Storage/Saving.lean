import DesignLoads.Storage.Disk

/-! Saving a file so that it is either written completely or left as it was: what it shall hold is
written to a temporary file, which then takes its place. -/

namespace DesignLoads

/-- What goes wrong in the steps of a save, whatever the disk holds. Of a write that goes wrong, the
first bytes may have been written. -/
structure Mishaps where
  create : Option Obstacle
  write : Option (Nat × Obstacle)
  sync : Option Obstacle
  rename : Option Obstacle
  remove : Option Obstacle

def Mishaps.none : Mishaps := ⟨.none, .none, .none, .none, .none⟩

namespace Disk

/-- An operation, unless something goes wrong. -/
def barring (mishap : Option Obstacle) (operation : Except Obstacle Disk) : Except Obstacle Disk :=
  match mishap with
  | some o => .error o
  | none => operation

/-- Saves a file. If the temporary file cannot take its place, it is removed. -/
def save (m : Mishaps) (d : Disk) (p : Path) (content : ByteArray) : Except Failure Unit × Disk :=
  let t := p.temporary
  let failed (operation : String) (p : Path) (o : Obstacle) : Except Failure Unit :=
    .error (.file operation p.text o.reason)
  match barring m.create (d.write t .empty) with
  | .error o => (failed "create temp file" t o, d)
  | .ok d =>
    match m.write with
    | some (n, o) =>
      (failed "write temp file" t o, ((d.write t (content.extract 0 n)).toOption).getD d)
    | none =>
      match d.write t content with
      | .error o => (failed "write temp file" t o, d)
      | .ok d =>
        match barring m.sync (.ok d) with
        | .error o => (failed "sync temp file" t o, d)
        | .ok d =>
          match barring m.rename (d.rename t p) with
          | .error o =>
            (failed "rename to final" p o, ((barring m.remove (d.remove t)).toOption).getD d)
          | .ok d => (.ok (), d)

end Disk

end DesignLoads
