/-!
Bytes and text. Both are lists, so that every function on them is a recursion on the data it reads.
-/

namespace Timestamping

abbrev Bytes := List UInt8

abbrev Text := List Char

end Timestamping
