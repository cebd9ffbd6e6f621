namespace EmbedScript

def preludeLines : List String := [
  "\"\"\"Bindings every module starts with, on top of the native builtins.\"\"\"",
  "",
  "",
  "class BaseException:",
  "    def __init__(self, *args):",
  "        self.args = args",
  "",
  "    def __str__(self):",
  "        if len(self.args) == 0:",
  "            return ''",
  "        if len(self.args) == 1:",
  "            return str(self.args[0])",
  "        return str(self.args)",
  "",
  "    def __repr__(self):",
  "        return type(self).__name__ + repr(self.args)",
  "",
  "",
  "class Exception(BaseException):",
  "    pass",
  "",
  "",
  "class TypeError(Exception):",
  "    pass",
  "",
  "",
  "class ValueError(Exception):",
  "    pass",
  "",
  "",
  "class LookupError(Exception):",
  "    pass",
  "",
  "",
  "class IndexError(LookupError):",
  "    pass",
  "",
  "",
  "class KeyError(LookupError):",
  "    pass",
  "",
  "",
  "class AttributeError(Exception):",
  "    pass",
  "",
  "",
  "class StopIteration(Exception):",
  "    pass",
  "",
  "",
  "class AssertionError(Exception):",
  "    pass",
  "",
  "",
  "class RuntimeError(Exception):",
  "    pass",
  "",
  "",
  "class NotImplementedError(RuntimeError):",
  "    pass",
  "",
  "",
  "class ArithmeticError(Exception):",
  "    pass",
  "",
  "",
  "class ZeroDivisionError(ArithmeticError):",
  "    pass",
  "",
  "",
  "def extension(target, name=None):",
  "    \"\"\"Decorator attaching the function to every value of a host type.\"\"\"",
  "    def register(function):",
  "        __extend__(target, function.__name__ if name is None else name, function)",
  "        return function",
  "    return register",
  "",
  "",
  "def _extreme(label, args, key, default, better):",
  "    items = args[0] if len(args) == 1 else args",
  "    found = False",
  "    best = None",
  "    best_key = None",
  "    for item in items:",
  "        item_key = item if key is None else key(item)",
  "        if not found or better(item_key, best_key):",
  "            found = True",
  "            best = item",
  "            best_key = item_key",
  "    if found:",
  "        return best",
  "    if default is not None:",
  "        return default",
  "    raise ValueError(label + '() arg is an empty sequence')",
  "",
  "",
  "def max(*args, key=None, default=None):",
  "    return _extreme('max', args, key, default, lambda a, b: a > b)",
  "",
  "",
  "def min(*args, key=None, default=None):",
  "    return _extreme('min', args, key, default, lambda a, b: a < b)",
  "",
  "",
  "def map(function, *iterables):",
  "    if len(iterables) == 1:",
  "        return (function(item) for item in iterables[0])",
  "    return (function(*row) for row in zip(*iterables))",
  "",
  "",
  "def filter(function, iterable):",
  "    if function is None:",
  "        return (item for item in iterable if item)",
  "    return (item for item in iterable if function(item))",
  "",
  "",
  "def any(iterable):",
  "    for item in iterable:",
  "        if item:",
  "            return True",
  "    return False",
  "",
  "",
  "def all(iterable):",
  "    for item in iterable:",
  "        if not item:",
  "            return False",
  "    return True",
  "",
  "",
  "def reversed(sequence):",
  "    return sequence[::-1]",
  "",
  "",
  "@extension(str, 'partition')",
  "def str_partition(self, sep):",
  "    at = self.find(sep)",
  "    if at < 0:",
  "        return (self, '', '')",
  "    return (self[:at], sep, self[at + len(sep):])",
  "",
  "",
  "@extension(str, 'rpartition')",
  "def str_rpartition(self, sep):",
  "    at = len(self) - len(sep)",
  "    while at >= 0:",
  "        if self[at:at + len(sep)] == sep:",
  "            return (self[:at], sep, self[at + len(sep):])",
  "        at -= 1",
  "    return ('', '', self)",
  "",
  "",
  "@extension(list, 'sum')",
  "def list_sum(self):",
  "    return sum(self)"]

def preludeText : String := "\n".intercalate preludeLines ++ "\n"

end EmbedScript
