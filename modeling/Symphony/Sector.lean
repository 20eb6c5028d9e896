import Symphony.Ty

/-!
# Memory sectors

Addresses are integers. Four sectors follow each other, and each is cut into one region for
every type, all of the same width, in the order of `Ty.all`. The compiler hands out addresses
from the start of a region upwards; the machine finds the region of an address by `locate?`.
-/

namespace Symphony

inductive Sector
  | globals
  | temporals
  | constants
  | locals
deriving DecidableEq

namespace Sector

def all : List Sector := [globals, temporals, constants, locals]

/-- The first address of a sector. -/
def start : Sector → Int
  | globals => 10000
  | temporals => 130000
  | constants => 200000
  | locals => 250000

/-- The address after the last one of a sector. -/
def stop : Sector → Int
  | globals => 130000
  | temporals => 200000
  | constants => 250000
  | locals => 350000

/-- The number of addresses each type has in a sector. -/
def width (s : Sector) : Int :=
  (s.stop - s.start) / 5

/-- The first address of a type's region. -/
def regionStart (s : Sector) (t : Ty) : Int :=
  s.start + t.code * s.width

/-- The address after the last one of a type's region. -/
def regionStop (s : Sector) (t : Ty) : Int :=
  s.regionStart t + s.width

/-- The sector of an address. -/
def of? (a : Int) : Option Sector :=
  if a < globals.start then none
  else if a < temporals.start then some globals
  else if a < constants.start then some temporals
  else if a < locals.start then some constants
  else if a < locals.stop then some locals
  else none

/-- The sector and the type in whose region an address lies. -/
def locate? (a : Int) : Option (Sector × Ty) :=
  match of? a with
  | none => none
  | some s => (Ty.ofCode? ((a - s.start) / s.width).toNat).map (s, ·)

end Sector

end Symphony
