import Symphony.Sector

/-!
# Tables by type and by sector

Address counters, constants and memory all have one entry for every type, or one for every type of
every sector. These are records rather than functions, so that replacing an entry replaces it.
-/

namespace Symphony

/-- One entry for every type. -/
structure PerTy (α : Type) where
  int : α
  char : α
  str : α
  bool : α
  dec : α
deriving DecidableEq

namespace PerTy

variable {α : Type}

def ofFn (f : Ty → α) : PerTy α := ⟨f .int, f .char, f .str, f .bool, f .dec⟩

def get (p : PerTy α) : Ty → α
  | .int => p.int
  | .char => p.char
  | .str => p.str
  | .bool => p.bool
  | .dec => p.dec

def set (p : PerTy α) (t : Ty) (a : α) : PerTy α :=
  match t with
  | .int => { p with int := a }
  | .char => { p with char := a }
  | .str => { p with str := a }
  | .bool => { p with bool := a }
  | .dec => { p with dec := a }

@[simp] theorem get_ofFn (f : Ty → α) (t : Ty) : (ofFn f).get t = f t := by
  cases t <;> rfl

@[simp] theorem get_set_self (p : PerTy α) (t : Ty) (a : α) : (p.set t a).get t = a := by
  cases t <;> rfl

theorem get_set_of_ne (p : PerTy α) {t u : Ty} (a : α) (h : u ≠ t) :
    (p.set t a).get u = p.get u := by
  cases t <;> cases u <;> simp_all [get, set]

end PerTy

/-- One entry for every sector. -/
structure PerSector (α : Type) where
  globals : α
  temporals : α
  constants : α
  locals : α
deriving DecidableEq

namespace PerSector

variable {α : Type}

def ofFn (f : Sector → α) : PerSector α := ⟨f .globals, f .temporals, f .constants, f .locals⟩

def get (p : PerSector α) : Sector → α
  | .globals => p.globals
  | .temporals => p.temporals
  | .constants => p.constants
  | .locals => p.locals

def set (p : PerSector α) (s : Sector) (a : α) : PerSector α :=
  match s with
  | .globals => { p with globals := a }
  | .temporals => { p with temporals := a }
  | .constants => { p with constants := a }
  | .locals => { p with locals := a }

@[simp] theorem get_ofFn (f : Sector → α) (s : Sector) : (ofFn f).get s = f s := by
  cases s <;> rfl

@[simp] theorem get_set_self (p : PerSector α) (s : Sector) (a : α) : (p.set s a).get s = a := by
  cases s <;> rfl

theorem get_set_of_ne (p : PerSector α) {s r : Sector} (a : α) (h : r ≠ s) :
    (p.set s a).get r = p.get r := by
  cases s <;> cases r <;> simp_all [get, set]

end PerSector

/-- The next free address of every type in every sector. -/
abbrev Counters := PerSector (PerTy Int)

/-- Before any allocation every counter stands at the start of its region. -/
def Counters.initial : Counters :=
  .ofFn fun s => .ofFn s.regionStart

end Symphony
