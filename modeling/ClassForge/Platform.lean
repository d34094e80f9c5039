set_option autoImplicit false

namespace ClassForge.Platform

def implicitUses : List (String × String) :=
  ["Object", "String", "Integer", "Long", "Float", "Double", "Boolean", "Character", "Short", "Byte",
    "Comparable", "Iterable", "Throwable", "Exception", "RuntimeException",
    "IllegalArgumentException", "IllegalStateException", "UnsupportedOperationException"].map
    (fun short => (short, "java.lang." ++ short))

def classes : List String :=
  ["java.lang.Object", "java.lang.String", "java.lang.Integer", "java.lang.Long",
    "java.lang.Float", "java.lang.Double", "java.lang.Boolean", "java.lang.Character",
    "java.lang.Short", "java.lang.Byte", "java.lang.Number", "java.lang.Math",
    "java.lang.System", "java.lang.StringBuilder", "java.lang.Enum", "java.lang.Class",
    "java.lang.Throwable", "java.lang.Exception", "java.lang.Error",
    "java.lang.RuntimeException", "java.lang.IllegalArgumentException",
    "java.lang.IllegalStateException", "java.lang.UnsupportedOperationException",
    "java.lang.IndexOutOfBoundsException", "java.lang.NullPointerException",
    "java.util.ArrayList", "java.util.HashMap", "java.util.HashSet",
    "java.util.LinkedList", "java.util.Objects", "java.util.Arrays",
    "java.util.Collections", "java.io.File", "java.io.PrintStream"]

def interfaces : List String :=
  ["java.lang.Comparable", "java.lang.Iterable", "java.lang.Runnable",
    "java.lang.CharSequence", "java.lang.Cloneable", "java.io.Serializable",
    "java.util.List", "java.util.Map", "java.util.Set", "java.util.Collection",
    "java.util.Iterator", "java.util.Comparator", "java.util.function.Function",
    "java.util.function.Supplier", "java.util.function.Consumer"]

def isInterface? (qualified : String) : Option Bool :=
  if qualified ∈ interfaces then some true
  else if qualified ∈ classes then some false
  else none

end ClassForge.Platform
