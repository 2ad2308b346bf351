import SlabStudy.Xv6.ShellSession

/-!
# What the programs of a session are connected to

In any order of steps: the files of a program when it is started, the holders
of the ends of a pipe, and whom the shell waits for.
-/

namespace SlabStudy.Xv6.Shell

open Library

variable {session : List Cmd} {io : Io} {s s' : Procs} {pr : Proc} {x sh : Nat} {fds : Fds}

/-! ## `ls|wc` -/

theorem reach {l : Nat × Event} (reached : (machine session fds sh).Reachable s)
    (step : Step s l s') : (machine session fds sh).Reachable s' := reached.step step

/-- A process that is not about to use the descriptors for a command further down. -/
def Proc.At (pr : Proc) (place : Place) : Prop :=
  match pr.doing with
  | .program here => here = place
  | .failed here => here = place
  | .shell (.act (.wait here) _) => here = place
  | .shell (.act (.exec here _) _) => here = place
  | .shell (.act (.exit here _) _) => here = place
  | _ => False

theorem Fine.near {place : Place} (fine : Fine session io pr) (outer : io.Outer)
    (settled : pr.At place) {fd : Nat} {file : File} (has : pr.here.fds fd = some file) :
    Near place file := by
  have within (found : Within session io place pr.here.fds) : Near place file := by
    obtain ⟨io', found, held⟩ := found
    exact (stdioAt_near found outer).fds (held fd file has)
  unfold Proc.At at settled
  split at settled
  · next doing =>
    subst settled
    exact (fine.program doing).1 fd file has
  · next doing =>
    subst settled
    exact within (fine.failed doing).1
  · next doing =>
    subst settled
    exact within (fine.shell doing).here.1.within
  · next doing =>
    subst settled
    exact within (fine.shell doing).here.1.within
  · next doing =>
    subst settled
    exact within (fine.shell doing).here.1.within
  · exact absurd settled id

end SlabStudy.Xv6.Shell
