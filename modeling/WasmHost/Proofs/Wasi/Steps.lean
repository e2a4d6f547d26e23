import WasmHost.Proofs.World.Extension
import WasmHost.Wasi.Functions

/-!
# What a function of the system interface does to its guest

A function reads and writes the memory of its guest, reads from the standard input and writes to the
outputs; nothing else ever happens to the guest. `Guest.Allows` says that a relation between guests
has room for this, and then each function leads to a guest that is related to the one before. What
it writes lies within the memory, which so evolves as it does under any other code.
-/

namespace WasmHost.Wasi

namespace Guest

/-- The guest with its memory after bytes were put there. -/
def put (start : Nat) (bytes : List UInt8) (g : Guest) : Guest :=
  { g with memory := g.memory.put start bytes }

/-- The guest behind bytes of its input. -/
def passOver (n : Nat) (g : Guest) : Guest :=
  { g with context := { g.context with stdin := (g.context.stdin.skip n g.process).1 }
           process := (g.context.stdin.skip n g.process).2 }

/-- The guest after bytes were written to its output. -/
def print (bytes : List UInt8) (g : Guest) : Guest :=
  let out := g.context.stdout
  { g with context := { g.context with stdout := (out.write bytes g.files).1 }
           files := (out.write bytes g.files).2
           process := { g.process with stdout := out.pass bytes g.process.stdout } }

/-- The guest after bytes were written to its error output. -/
def printError (bytes : List UInt8) (g : Guest) : Guest :=
  let out := g.context.stderr
  { g with context := { g.context with stderr := (out.write bytes g.files).1 }
           files := (out.write bytes g.files).2
           process := { g.process with stderr := out.pass bytes g.process.stderr } }

/-- The relation has room for all that a function does to its guest. -/
structure Allows (R : Guest → Guest → Prop) : Prop where
  refl : ∀ g, R g g
  trans : ∀ {g g' g''}, R g g' → R g' g'' → R g g''
  put : ∀ {g : Guest} {start : Nat} {bytes : List UInt8},
    g.memory.fits start bytes.length → R g (g.put start bytes)
  passOver : ∀ (n : Nat) (g : Guest), R g (g.passOver n)
  print : ∀ (bytes : List UInt8) (g : Guest), R g (g.print bytes)
  printError : ∀ (bytes : List UInt8) (g : Guest), R g (g.printError bytes)

end Guest

variable {R : Guest → Guest → Prop}

namespace Step

/-- The step leads to a guest that is related to the one before. -/
def Follows {α : Type} (R : Guest → Guest → Prop) (p : Step α) : Prop :=
  ∀ g : Guest, R g (p.run.run g).2

variable {α β : Type}

theorem Follows.pure (hR : Guest.Allows R) (a : α) : Follows R (pure a : Step α) := hR.refl

theorem Follows.throw (hR : Guest.Allows R) (e : GuestFault) : Follows R (throw e : Step α) :=
  hR.refl

theorem Follows.get (hR : Guest.Allows R) : Follows R (get : Step Guest) := hR.refl

theorem Follows.modify {f : Guest → Guest} (hf : ∀ g : Guest, R g (f g)) :
    Follows R (modify f : Step PUnit) := hf

theorem Follows.bind (hR : Guest.Allows R) {p : Step α} {k : α → Step β} (hp : Follows R p)
    (hk : ∀ a, Follows R (k a)) : Follows R (p >>= k) := by
  intro g
  have hfirst := hp g
  rw [ExceptT.run_bind, StateT.run_bind]
  cases h : p.run.run g with
  | mk r g' =>
      rw [h] at hfirst
      cases r with
      | ok a => exact hR.trans hfirst (hk a g')
      | error e => exact hfirst

theorem Follows.ite {c : Prop} [Decidable c] {p q : Step α} (hp : Follows R p)
    (hq : Follows R q) : Follows R (if c then p else q) := by
  split
  · exact hp
  · exact hq

/-! ## Reading and writing -/

section

variable (hR : Guest.Allows R)
include hR

theorem follows_check (start length align : Nat) : Follows R (check start length align) := by
  refine .bind hR (.get hR) fun g => ?_
  have haligned : Follows R (if start % align ≠ 0 then
      MonadExcept.throw (.notAligned align start length) else Pure.pure () : Step Unit) :=
    .ite (.throw hR _) (.pure hR _)
  exact .ite (.bind hR (.throw hR _) fun _ => haligned) haligned

theorem follows_read (start length align : Nat) : Follows R (read start length align) :=
  .bind hR (follows_check hR start length align) fun _ => .bind hR (.get hR) fun _ => .pure hR _

omit hR in
/-- What passes the check fits. -/
theorem fits_of_check {start length align : Nat} {g g' : Guest}
    (h : (check start length align).run.run g = (.ok (), g')) :
    g' = g ∧ g.memory.fits start length := by
  change (ite (_ = true) _ _ : Step Unit).run.run g = _ at h
  split at h
  · cases h
  · rename_i fits
    change (ite _ _ _ : Step Unit).run.run g = _ at h
    split at h <;> cases h
    exact ⟨rfl, by simpa using fits⟩

theorem follows_write (start align : Nat) (bytes : List UInt8) :
    Follows R (write start align bytes) := by
  intro g
  have hchecked := follows_check hR start bytes.length align g
  rw [write, ExceptT.run_bind, StateT.run_bind]
  cases h : (check start bytes.length align).run.run g with
  | mk r g' =>
      rw [h] at hchecked
      cases r with
      | ok a =>
          obtain ⟨rfl, fits⟩ := fits_of_check h
          exact hR.put fits
      | error e => exact hchecked

theorem follows_read32 (start : Nat) : Follows R (read32 start) :=
  .bind hR (follows_read hR start 4 4) fun _ => .pure hR _

theorem follows_write32 (start n : Nat) : Follows R (write32 start n) := follows_write hR start 4 _

end

end Step

open Step

/-! ## Functions -/

section

variable (hR : Guest.Allows R)
include hR

theorem follows_firstRange (list count : Nat) : Follows R (firstRange list count) := by
  induction count generalizing list with
  | zero => exact .pure hR _
  | succ n ih =>
      exact .bind hR (follows_read32 hR list) fun _ =>
        .bind hR (follows_read32 hR (list + 4)) fun _ => .ite (ih (list + 8)) (.pure hR _)

theorem follows_stringSizes (strings : List String) (count size : Nat) :
    Follows R (stringSizes strings count size) :=
  .bind hR (follows_write32 hR count _) fun _ =>
    .bind hR (follows_write32 hR size _) fun _ => .pure hR _

theorem follows_stringsAt (pointers buffer : Nat) (strings : List String) :
    Follows R (stringsAt pointers buffer strings) := by
  induction strings generalizing pointers buffer with
  | nil => exact .pure hR _
  | cons s rest ih =>
      exact .bind hR (follows_write32 hR pointers buffer) fun _ =>
        .bind hR (follows_write hR buffer 1 (terminated s)) fun _ => ih _ _

theorem follows_writeTo (fd list count written : Nat) :
    Follows R (writeTo fd list count written) := by
  refine .bind hR (follows_firstRange hR list count) fun range => ?_
  refine .bind hR (follows_read hR range.1 range.2 1) fun bytes => ?_
  refine .bind hR (.modify fun g => ?_) fun _ =>
    .bind hR (follows_write32 hR written _) fun _ => .pure hR _
  dsimp only
  split
  · exact hR.print bytes g
  · exact hR.printError bytes g

theorem follows_readFrom (list count got : Nat) : Follows R (readFrom list count got) := by
  refine .bind hR (follows_firstRange hR list count) fun range => ?_
  have hwritten (bytes : List UInt8) : Follows R (do
      write range.1 1 bytes
      write32 got bytes.length
      return Errno.success : Step Errno) :=
    .bind hR (follows_write hR range.1 1 bytes) fun _ =>
      .bind hR (follows_write32 hR got _) fun _ => .pure hR _
  intro g
  exact hR.trans (hR.passOver range.2 g) (hwritten _ _)

theorem follows_service (s : Service) (args : List Nat) : Follows R (s.run args) := by
  refine .bind hR (.get hR) fun g => ?_
  dsimp only
  split
  · exact follows_stringSizes hR _ _ _
  · exact follows_stringsAt hR _ _ _
  · exact follows_stringSizes hR _ _ _
  · exact follows_stringsAt hR _ _ _
  · split
    · exact .bind hR (follows_write hR _ 4 _) fun _ =>
        .bind hR (follows_write32 hR _ _) fun _ => .pure hR _
    · exact .pure hR _
  · split
    · exact .ite (.pure hR _) (.bind hR (follows_write hR _ 1 _) fun _ => .pure hR _)
    · exact .pure hR _
  · exact .ite (follows_readFrom hR _ _ _) (.pure hR _)
  · exact .ite (follows_writeTo hR _ _ _ _) (.pure hR _)
  · exact .throw hR _
  · exact .pure hR _

/-- A function leads to a guest that is related to the one before. -/
theorem follows_run (f : Func) (args : List Nat) (g : Guest) : R g (f.run args g).2 := by
  unfold Func.run
  split
  · exact follows_service hR _ args g
  · exact hR.refl g

end

/-! ## Memory -/

/-- A memory evolves under all that a function does. -/
theorem allows_evolves : Guest.Allows fun g g' => g.memory.Evolves g'.memory where
  refl _ := .refl
  trans := .trans
  put fits := .single (.put fits)
  passOver _ _ := .refl
  print _ _ := .refl
  printError _ _ := .refl

/-- The memory that a function of the system interface leaves behind. -/
theorem evolves_run (f : Func) (args : List Nat) (g : Guest) :
    g.memory.Evolves (f.run args g).2.memory := follows_run allows_evolves f args g

theorem becomes_run (f : Func) (args : List Nat) (g : Guest) :
    g.memory.Becomes (f.run args g).2.memory := (evolves_run f args g).becomes

end WasmHost.Wasi
