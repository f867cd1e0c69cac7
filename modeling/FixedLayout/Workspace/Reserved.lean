/-!
# Reserved names

A name after a dot reaches a field of a view only if no operation has that name.

* `viewOperations`: the names that stand for an operation of a view;
* `packetOperations`: the names that stand for an operation of a packet.
-/

namespace FixedLayout

/-- The names of operations that a view and a packet share. -/
def sharedOperations : List String :=
  ["__abstractmethods__", "__bytes__", "__class__", "__class_getitem__", "__delattr__", "__dir__",
   "__doc__", "__eq__", "__format__", "__ge__", "__getattribute__", "__getstate__", "__gt__",
   "__hash__", "__init__", "__init_subclass__", "__le__", "__len__", "__lt__", "__module__",
   "__ne__", "__new__", "__orig_bases__", "__parameters__", "__reduce__", "__reduce_ex__",
   "__repr__", "__setattr__", "__sizeof__", "__slots__", "__str__", "__subclasshook__",
   "_abc_impl", "_data", "_is_protocol", "_layout", "_other_bytes", "layout", "tobytes",
   "type_name", "unpack"]

/-- The names of operations of a view. No field can be reached by one of them after a dot. -/
def viewOperations : List String :=
  sharedOperations ++
  ["__bool__", "__enter__", "__exit__", "__getattr__", "__getitem__", "__iter__", "__reversed__",
   "_buffer", "_child", "_entry_count", "accessors", "as_slice", "decode", "field", "release",
   "released", "to_owned", "try_from_slice", "unchecked_from_slice"]

/-- The names of operations of a packet. -/
def packetOperations : List String :=
  sharedOperations ++ ["from_view", "pack", "try_from_bytes", "view"]

end FixedLayout
