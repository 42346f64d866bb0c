import UseImports.Name.Basic

/-!
# Names that need no import

Reserved words count in any case, since keywords do; the classes that come with PHP count only as
they are spelled.

Main definitions:
* `isReserved` (`is_reserved`): keywords, self-references and scalar types.
* `isBuiltinClass` (`is_builtin_class`): classes, interfaces and attributes that come with PHP.
* `isBuiltin` (`is_builtin`): either of the two.
-/

namespace UseImports

/-- The words that are never class names. -/
def reservedWords : List String :=
  [
   -- self-references
   "self", "parent", "static",
   -- scalar and pseudo types
   "array", "bool", "boolean", "callable", "false", "float", "double", "int", "integer", "iterable",
   "mixed", "never", "null", "object", "resource", "string", "true", "void",
   -- keywords that can sit where a type is expected
   "abstract", "and", "as", "break", "case", "catch", "class", "clone", "const", "continue",
   "declare", "default", "do", "echo", "else", "elseif", "empty", "enddeclare", "endfor",
   "endforeach", "endif", "endswitch", "endwhile", "enum", "eval", "exit", "die", "extends",
   "final", "finally", "fn", "for", "foreach", "function", "global", "goto", "if", "implements",
   "include", "include_once", "instanceof", "insteadof", "interface", "isset", "list", "match",
   "namespace", "new", "or", "print", "private", "protected", "public", "readonly", "require",
   "require_once", "return", "switch", "throw", "trait", "try", "unset", "use", "var", "while",
   "xor", "yield"]

/-- The classes, interfaces and attributes that come with PHP. -/
def builtinClasses : List String :=
  [
   -- core
   "stdClass", "Closure", "Generator", "WeakReference", "WeakMap", "Fiber", "FiberError",
   "__PHP_Incomplete_Class", "ArgumentCountError", "ArithmeticError", "AssertionError",
   "CompileError", "DivisionByZeroError", "Error", "ErrorException", "Exception", "ParseError",
   "TypeError", "ValueError", "UnhandledMatchError", "Throwable", "Stringable", "Traversable",
   "Iterator", "IteratorAggregate", "ArrayAccess", "Countable", "Serializable", "JsonSerializable",
   "JsonException", "UnitEnum", "BackedEnum", "InternalIterator",
   -- attributes
   "Attribute", "AllowDynamicProperties", "Override", "ReturnTypeWillChange", "SensitiveParameter",
   "SensitiveParameterValue", "Deprecated",
   -- SPL exceptions
   "BadFunctionCallException", "BadMethodCallException", "DomainException",
   "InvalidArgumentException", "LengthException", "LogicException", "OutOfBoundsException",
   "OutOfRangeException", "OverflowException", "RangeException", "RuntimeException",
   "UnderflowException", "UnexpectedValueException",
   -- SPL data structures and iterators
   "ArrayObject", "ArrayIterator", "RecursiveArrayIterator", "SplDoublyLinkedList", "SplQueue",
   "SplStack", "SplHeap", "SplMinHeap", "SplMaxHeap", "SplPriorityQueue", "SplFixedArray",
   "SplObjectStorage", "SplObserver", "SplSubject", "SplFileInfo", "SplFileObject",
   "SplTempFileObject", "AppendIterator", "CachingIterator", "CallbackFilterIterator",
   "DirectoryIterator", "EmptyIterator", "FilesystemIterator", "FilterIterator", "GlobIterator",
   "InfiniteIterator", "IteratorIterator", "LimitIterator", "MultipleIterator", "NoRewindIterator",
   "OuterIterator", "ParentIterator", "RecursiveCachingIterator", "RecursiveCallbackFilterIterator",
   "RecursiveDirectoryIterator", "RecursiveFilterIterator", "RecursiveIterator",
   "RecursiveIteratorIterator", "RecursiveRegexIterator", "RecursiveTreeIterator", "RegexIterator",
   "SeekableIterator",
   -- date
   "DateTime", "DateTimeImmutable", "DateTimeInterface", "DateTimeZone", "DateInterval",
   "DatePeriod", "DateError", "DateException", "DateMalformedStringException",
   "DateInvalidTimeZoneException",
   -- reflection
   "Reflection", "ReflectionClass", "ReflectionClassConstant", "ReflectionEnum",
   "ReflectionEnumBackedCase", "ReflectionEnumUnitCase", "ReflectionException", "ReflectionFiber",
   "ReflectionFunction", "ReflectionFunctionAbstract", "ReflectionGenerator",
   "ReflectionIntersectionType", "ReflectionMethod", "ReflectionNamedType", "ReflectionObject",
   "ReflectionParameter", "ReflectionProperty", "ReflectionReference", "ReflectionType",
   "ReflectionUnionType", "ReflectionAttribute", "Reflector",
   -- common extensions
   "PDO", "PDOException", "PDOStatement", "PDORow", "DOMDocument", "DOMElement", "DOMNode",
   "DOMNodeList", "DOMXPath", "DOMException", "SimpleXMLElement", "SimpleXMLIterator", "XMLReader",
   "XMLWriter", "IntlDateFormatter", "NumberFormatter", "Collator", "Locale", "Normalizer",
   "SessionHandler", "SessionHandlerInterface", "SplEnum", "CURLFile", "CurlHandle", "finfo",
   "mysqli", "mysqli_result", "mysqli_stmt", "ZipArchive", "Phar", "PharData", "Random\\Randomizer"]

/-- A keyword, self-reference or scalar type, in any ASCII case (`is_reserved`). -/
def isReserved (name : String) : Bool :=
  reservedWords.contains (String.ofList (name.toList.map Char.toLower))

/-- A class that comes with PHP, with or without a leading backslash (`is_builtin_class`). -/
def isBuiltinClass (name : String) : Bool :=
  builtinClasses.contains (stripLeading name)

/-- A name that never needs an import (`is_builtin`). -/
def isBuiltin (name : String) : Bool :=
  isReserved name || isBuiltinClass name

end UseImports
