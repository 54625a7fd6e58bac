import Mathlib.Init

/-!
# Error numbers

The kernel's `Errno` (`fs/errno.rs`), shared by the file systems, the memory map and the system
call layer. Only the constructors matter to the models; the numeric Linux values are not used.
-/

namespace SaeOS

/-- Error numbers returned by the kernel, named as in Linux. -/
inductive Errno
  | EPERM | ENOENT | EIO | E2BIG | ENOEXEC | EBADF | ECHILD | ENOMEM | EACCES | EFAULT | EBUSY
  | EEXIST | EXDEV | ENODEV | ENOTDIR | EISDIR | EINVAL | EMFILE | ENOTTY | ENOSPC | ESPIPE
  | EROFS | ERANGE | ENAMETOOLONG | ENOSYS | ENOTEMPTY
  deriving DecidableEq, Repr

end SaeOS
