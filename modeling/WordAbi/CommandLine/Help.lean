/-! The texts that tell how the program is used. -/
namespace WordAbi.CommandLine

def mainHelp : String :=
  "usage: vm-abi [-h] [--version] [--format \x7btext,json\x7d] [--log-level LOG_LEVEL]\n"
    ++ "              \x7bselectors,encode,decode,logs\x7d ...\n\n"
    ++ "Encode and decode VM ABI data.\n\n"
    ++ "positional arguments:\n"
    ++ "  \x7bselectors,encode,decode,logs\x7d\n"
    ++ "    selectors           List function signatures and selectors\n"
    ++ "    encode              Encode call data for a function\n"
    ++ "    decode              Decode a function's return value\n"
    ++ "    logs                Decode log receipts\n\n"
    ++ "options:\n"
    ++ "  -h, --help            show this help message and exit\n"
    ++ "  --version             show program's version number and exit\n"
    ++ "  --format \x7btext,json\x7d  Output format (default: text)\n"
    ++ "  --log-level LOG_LEVEL\n"
    ++ "                        Log level for stderr diagnostics (default: WARNING)\n"

def selectorsHelp : String :=
  "usage: vm-abi selectors [-h] abi\n\n"
    ++ "positional arguments:\n"
    ++ "  abi         Path to a program ABI JSON file\n\n"
    ++ "options:\n"
    ++ "  -h, --help  show this help message and exit\n"

def encodeHelp : String :=
  "usage: vm-abi encode [-h] [--base-offset BASE_OFFSET]\n"
    ++ "                     [--contract-id CONTRACT_ID]\n"
    ++ "                     abi function args\n\n"
    ++ "positional arguments:\n"
    ++ "  abi                   Path to a program ABI JSON file\n"
    ++ "  function              Function name\n"
    ++ "  args                  JSON array of arguments\n\n"
    ++ "options:\n"
    ++ "  -h, --help            show this help message and exit\n"
    ++ "  --base-offset BASE_OFFSET\n"
    ++ "                        VM address the call data is placed at\n"
    ++ "  --contract-id CONTRACT_ID\n"
    ++ "                        Hex contract id; emit full script data instead of call\n"
    ++ "                        data\n"

def decodeHelp : String :=
  "usage: vm-abi decode [-h] [--base-offset BASE_OFFSET] abi function data\n\n"
    ++ "positional arguments:\n"
    ++ "  abi                   Path to a program ABI JSON file\n"
    ++ "  function              Function name\n"
    ++ "  data                  Hex-encoded return data\n\n"
    ++ "options:\n"
    ++ "  -h, --help            show this help message and exit\n"
    ++ "  --base-offset BASE_OFFSET\n"
    ++ "                        VM address the data was resolved at\n"

def logsHelp : String :=
  "usage: vm-abi logs [-h] abi receipts\n\n"
    ++ "positional arguments:\n"
    ++ "  abi         Path to a program ABI JSON file\n"
    ++ "  receipts    Path to a JSON array of receipts ('-' for stdin)\n\n"
    ++ "options:\n"
    ++ "  -h, --help  show this help message and exit\n"

end WordAbi.CommandLine
