import BlockScript.Catalog

/-!
# The robot's catalog

The vocabulary of the robot: its buttons, sensors, motors, lights, display and speaker, and the
arithmetic, text and list blocks that every program can use.
-/

namespace BlockScript.Robot

/-- The buttons of the hub. -/
def buttons : List String := ["a", "b", "left", "right", "center"]

/-- The colours that the sensor tells apart and the lights can show. -/
def colors : List String :=
  ["red", "orange", "yellow", "green", "cyan", "blue", "purple", "white", "black"]

/-- The movements that the hub detects. -/
def gestures : List String :=
  ["shake", "tilt left", "tilt right", "tilt forward", "tilt back", "free fall"]

/-- The ports for motors. -/
def ports : List String := ["A", "B", "C", "D"]

/-- A parameter that a block takes as an input. -/
def input (name : String) (type : DataType) (slot : String) : ParamSpec :=
  { name, type, slot := .input slot }

/-- A text parameter that a block takes as a field. -/
def field (name slot : String) (options : List String) : ParamSpec :=
  { name, type := .string, slot := .field slot, options := some options }

/-- A text parameter that a block takes as a menu. -/
def menu (name slot opcode menuField : String) (options : Option (List String)) : ParamSpec :=
  { name, type := .string, slot := .menu slot opcode menuField, options }

/-- A parameter that names a list. -/
def listOf (name : String) (type : DataType) : ParamSpec :=
  { name, type, slot := .list "LIST" }

/-- The events. -/
def events : List Builtin := [
  ⟨"start", "When the program starts", [{ params := [], opcode := "event_whenprogramstarts" }]⟩,
  ⟨"button", "When a hub button is pressed",
    [{ params := [field "button" "BUTTON" buttons], opcode := "robot_whenbuttonpressed" }]⟩,
  ⟨"gesture", "When the hub detects a motion gesture",
    [{ params := [field "gesture" "GESTURE" gestures], opcode := "robot_whengesture" }]⟩,
  ⟨"color", "When the color sensor sees a color",
    [{ params := [field "color" "COLOR" colors], opcode := "robot_whencolordetected" }]⟩,
  ⟨"obstacle", "When something comes close to the distance sensor",
    [{ params := [], opcode := "robot_whenobstacle" }]⟩,
  ⟨"timer", "When the timer passes a number of seconds",
    [{ params := [input "seconds" .number "VALUE"], opcode := "event_whengreaterthan",
       fields := [("WHENGREATERTHANMENU", "TIMER")] }]⟩,
  ⟨"loudness", "When the microphone hears a sound louder than a level",
    [{ params := [input "level" .number "VALUE"], opcode := "event_whengreaterthan",
       fields := [("WHENGREATERTHANMENU", "LOUDNESS")] }]⟩]

/-- The properties to read. -/
def reporters : List Builtin := [
  ⟨"timer", "Seconds since start or last reset",
    [{ params := [], result := some .number, opcode := "sensing_timer" }]⟩,
  ⟨"sensor.distance", "Distance sensor reading in cm",
    [{ params := [], result := some .number, opcode := "robot_distance" }]⟩,
  ⟨"sensor.loudness", "Microphone level 0-100",
    [{ params := [], result := some .number, opcode := "sensing_loudness" }]⟩,
  ⟨"sensor.light", "Ambient light level 0-100",
    [{ params := [], result := some .number, opcode := "robot_lightlevel" }]⟩,
  ⟨"sensor.color", "Name of the color under the color sensor",
    [{ params := [], result := some .string, opcode := "robot_colordetected" }]⟩,
  ⟨"audio.volume", "Speaker volume 0-100",
    [{ params := [], result := some .number, opcode := "sound_volume" }]⟩,
  ⟨"drive.speed", "Drive base speed in percent",
    [{ params := [], result := some .number, opcode := "robot_drivespeed" }]⟩,
  ⟨"display.brightness", "LED matrix brightness 0-100",
    [{ params := [], result := some .number, opcode := "robot_displaybrightness" }]⟩]

/-- The properties to write. -/
def properties : List Property := [
  { name := "audio.volume", type := .number, description := "Speaker volume 0-100",
    set :=
      { params := [input "volume" .number "VOLUME"], opcode := "sound_setvolumeto" },
    changes := [
      { params := [input "volume" .number "VOLUME"], opcode := "sound_changevolumeby" }] },
  { name := "audio.pitch", type := .number, description := "Pitch effect applied to sounds",
    set :=
      { params := [input "pitch" .number "VALUE"], opcode := "sound_seteffectto",
        fields := [("EFFECT", "PITCH")] },
    changes := [
      { params := [input "pitch" .number "VALUE"], opcode := "sound_changeeffectby",
        fields := [("EFFECT", "PITCH")] }] },
  { name := "drive.speed", type := .number, description := "Drive base speed in percent",
    set :=
      { params := [input "speed" .number "SPEED"], opcode := "robot_setdrivespeed" } },
  { name := "display.brightness", type := .number, description := "LED matrix brightness 0-100",
    set :=
      { params := [input "brightness" .number "BRIGHTNESS"], opcode := "robot_setbrightness" },
    changes := [
      { params := [input "brightness" .number "BRIGHTNESS"],
        opcode := "robot_changebrightnessby" }] }]

/-- The statements. -/
def statements : List Builtin := [
  ⟨"audio.playBuzzer", "Play a tone on the buzzer",
    [{ params := [input "freq" .number "FREQUENCY"], opcode := "robot_playtone" },
     { params := [input "freq" .number "FREQUENCY", input "seconds" .number "DURATION"],
       opcode := "robot_playtonefor" }]⟩,
  ⟨"audio.playSound", "Start playing a sound",
    [{ params := [menu "sound" "SOUND_MENU" "sound_sounds_menu" "SOUND_MENU" none],
       opcode := "sound_play" }]⟩,
  ⟨"audio.playSoundUntilDone", "Play a sound and wait for it to finish",
    [{ params := [menu "sound" "SOUND_MENU" "sound_sounds_menu" "SOUND_MENU" none],
       opcode := "sound_playuntildone" }]⟩,
  ⟨"audio.stop", "Stop all sounds", [{ params := [], opcode := "sound_stopallsounds" }]⟩,
  ⟨"motors.run", "Run a motor at a speed, optionally for a time",
    [{ params := [menu "port" "PORT" "robot_menu_port" "PORT" (some ports),
         input "speed" .number "SPEED"], opcode := "robot_motorrun" },
     { params := [menu "port" "PORT" "robot_menu_port" "PORT" (some ports),
         input "speed" .number "SPEED", input "seconds" .number "DURATION"],
       opcode := "robot_motorrunfor" }]⟩,
  ⟨"motors.stop", "Stop a motor",
    [{ params := [menu "port" "PORT" "robot_menu_port" "PORT" (some ports)],
       opcode := "robot_motorstop" }]⟩,
  ⟨"drive.move", "Drive forward (negative: backward) a distance in cm",
    [{ params := [input "distance" .number "DISTANCE"], opcode := "robot_drivemove" }]⟩,
  ⟨"drive.turn", "Turn in place by degrees (positive: clockwise)",
    [{ params := [input "degrees" .number "DEGREES"], opcode := "robot_driveturn" }]⟩,
  ⟨"drive.stop", "Stop the drive base", [{ params := [], opcode := "robot_drivestop" }]⟩,
  ⟨"display.show", "Show text, a number or an image on the LED matrix",
    [{ params := [input "text" .string "TEXT"], opcode := "robot_displaytext" },
     { params := [input "value" .number "TEXT"], opcode := "robot_displaytext" },
     { params := [input "picture" .image "MATRIX"], opcode := "robot_displayimage" }]⟩,
  ⟨"display.pixel", "Light one pixel of the LED matrix",
    [{ params := [input "x" .number "X", input "y" .number "Y", field "color" "COLOR" colors],
       opcode := "robot_setpixel" }]⟩,
  ⟨"display.clear", "Turn off every pixel", [{ params := [], opcode := "robot_displayclear" }]⟩,
  ⟨"lights.setColor", "Set the status light color",
    [{ params := [menu "color" "COLOR" "robot_menu_color" "COLOR" (some colors)],
       opcode := "robot_setlightcolor" }]⟩,
  ⟨"lights.off", "Turn the status light off", [{ params := [], opcode := "robot_lightsoff" }]⟩,
  ⟨"flow.wait", "Wait a number of seconds",
    [{ params := [input "seconds" .number "DURATION"], opcode := "control_wait" }]⟩,
  ⟨"flow.waitUntil", "Wait until a condition is true",
    [{ params := [input "condition" .boolean "CONDITION"], opcode := "control_wait_until" }]⟩,
  ⟨"flow.stop", "Stop the whole program",
    [{ params := [], opcode := "control_stop", fields := [("STOP_OPTION", "all")],
       terminates := true }]⟩,
  ⟨"flow.stopThis", "Stop this script",
    [{ params := [], opcode := "control_stop", fields := [("STOP_OPTION", "this script")],
       terminates := true }]⟩,
  ⟨"timer.reset", "Reset the timer to zero", [{ params := [], opcode := "sensing_resettimer" }]⟩,
  ⟨"list.add", "Append an item",
    [{ params := [listOf "list" .numberList, input "item" .number "ITEM"],
       opcode := "data_addtolist" },
     { params := [listOf "list" .stringList, input "item" .string "ITEM"],
       opcode := "data_addtolist" }]⟩,
  ⟨"list.remove", "Delete the item at a 1-based index",
    [{ params := [listOf "list" .numberList, input "index" .number "INDEX"],
       opcode := "data_deleteoflist" },
     { params := [listOf "list" .stringList, input "index" .number "INDEX"],
       opcode := "data_deleteoflist" }]⟩,
  ⟨"list.clear", "Delete every item",
    [{ params := [listOf "list" .numberList], opcode := "data_deletealloflist" },
     { params := [listOf "list" .stringList], opcode := "data_deletealloflist" }]⟩,
  ⟨"list.insert", "Insert an item at a 1-based index",
    [{ params := [listOf "list" .numberList, input "index" .number "INDEX",
         input "item" .number "ITEM"], opcode := "data_insertatlist" },
     { params := [listOf "list" .stringList, input "index" .number "INDEX",
         input "item" .string "ITEM"], opcode := "data_insertatlist" }]⟩,
  ⟨"list.replace", "Replace the item at a 1-based index",
    [{ params := [listOf "list" .numberList, input "index" .number "INDEX",
         input "item" .number "ITEM"], opcode := "data_replaceitemoflist" },
     { params := [listOf "list" .stringList, input "index" .number "INDEX",
         input "item" .string "ITEM"], opcode := "data_replaceitemoflist" }]⟩]

/-- The functions. -/
def functions : List Builtin := [
  ⟨"math.abs", "Absolute value",
    [{ params := [input "x" .number "NUM"], result := some .number,
       opcode := "operator_mathop", fields := [("OPERATOR", "abs")] }]⟩,
  ⟨"math.floor", "Round down",
    [{ params := [input "x" .number "NUM"], result := some .number,
       opcode := "operator_mathop", fields := [("OPERATOR", "floor")] }]⟩,
  ⟨"math.ceil", "Round up",
    [{ params := [input "x" .number "NUM"], result := some .number,
       opcode := "operator_mathop", fields := [("OPERATOR", "ceiling")] }]⟩,
  ⟨"math.sqrt", "Square root",
    [{ params := [input "x" .number "NUM"], result := some .number,
       opcode := "operator_mathop", fields := [("OPERATOR", "sqrt")] }]⟩,
  ⟨"math.sin", "Sine of an angle in degrees",
    [{ params := [input "degrees" .number "NUM"], result := some .number,
       opcode := "operator_mathop", fields := [("OPERATOR", "sin")] }]⟩,
  ⟨"math.cos", "Cosine of an angle in degrees",
    [{ params := [input "degrees" .number "NUM"], result := some .number,
       opcode := "operator_mathop", fields := [("OPERATOR", "cos")] }]⟩,
  ⟨"math.round", "Round to nearest integer",
    [{ params := [input "x" .number "NUM"], result := some .number, opcode := "operator_round" }]⟩,
  ⟨"math.random", "Random number between two bounds",
    [{ params := [input "from" .number "FROM", input "to" .number "TO"], result := some .number,
       opcode := "operator_random" }]⟩,
  ⟨"text.length", "Number of characters",
    [{ params := [input "text" .string "STRING"], result := some .number,
       opcode := "operator_length" }]⟩,
  ⟨"text.letter", "Character at a 1-based index",
    [{ params := [input "text" .string "STRING", input "index" .number "LETTER"],
       result := some .string, opcode := "operator_letter_of" }]⟩,
  ⟨"text.contains", "Whether text contains a part (case-insensitive)",
    [{ params := [input "text" .string "STRING1", input "part" .string "STRING2"],
       result := some .boolean, opcode := "operator_contains" }]⟩,
  ⟨"list.length", "Number of items",
    [{ params := [listOf "list" .numberList], result := some .number,
       opcode := "data_lengthoflist" },
     { params := [listOf "list" .stringList], result := some .number,
       opcode := "data_lengthoflist" }]⟩,
  ⟨"list.item", "Item at a 1-based index",
    [{ params := [listOf "list" .numberList, input "index" .number "INDEX"], result := some .number,
       opcode := "data_itemoflist" },
     { params := [listOf "list" .stringList, input "index" .number "INDEX"], result := some .string,
       opcode := "data_itemoflist" }]⟩,
  ⟨"list.contains", "Whether the list holds an item",
    [{ params := [listOf "list" .numberList, input "item" .number "ITEM"], result := some .boolean,
       opcode := "data_listcontainsitem" },
     { params := [listOf "list" .stringList, input "item" .string "ITEM"], result := some .boolean,
       opcode := "data_listcontainsitem" }]⟩,
  ⟨"list.indexOf", "1-based index of an item, 0 if absent",
    [{ params := [listOf "list" .numberList, input "item" .number "ITEM"], result := some .number,
       opcode := "data_itemnumoflist" },
     { params := [listOf "list" .stringList, input "item" .string "ITEM"], result := some .number,
       opcode := "data_itemnumoflist" }]⟩,
  ⟨"sensor.isPressed", "Whether a hub button is held down",
    [{ params := [menu "button" "BUTTON" "robot_menu_button" "BUTTON" (some buttons)],
       result := some .boolean, opcode := "robot_buttonpressed" }]⟩,
  ⟨"sensor.seesColor", "Whether the color sensor sees a color",
    [{ params := [field "color" "COLOR" colors], result := some .boolean,
       opcode := "robot_seescolor" }]⟩,
  ⟨"motors.position", "Motor position in degrees",
    [{ params := [menu "port" "PORT" "robot_menu_port" "PORT" (some ports)], result := some .number,
       opcode := "robot_motorposition" }]⟩]

/-- The robot's catalog. -/
def catalog : Catalog := .ofLists events reporters properties statements functions

end BlockScript.Robot
